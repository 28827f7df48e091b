import Teal.Codec.Base64
import Teal.Proofs.Codec.Quanta

/-! Base 64 read back. A text is accepted just if it is the padded text of the bytes that it is read as: the
groups in front of the last hold symbols only, the last group holds two symbols or more and then nothing but
padding, and the bits that fill no byte are zeros. -/

namespace Teal.Codec.Base64

open List

theorem value?_eq_some {b : UInt8} {v : Nat} (h : value? b = some v) :
    v < 26 ∧ b.toNat = v + 65 ∨ 26 ≤ v ∧ v < 52 ∧ b.toNat = v + 71 ∨
      52 ≤ v ∧ v < 62 ∧ b.toNat + 4 = v ∨ v = 62 ∧ b.toNat = 43 ∨ v = 63 ∧ b.toNat = 47 := by
  simp only [value?] at h
  split_ifs at h <;> have hv := Option.some.inj h <;> omega

set_option maxRecDepth 1500 in
theorem value?_symbol : ∀ v < 64, (scheme.symbol v).toNat < 128 ∧ value? (scheme.byte v) = some v := by
  decide

theorem readBy_value? : scheme.ReadBy value? := by
  refine Scheme.readBy_of_injective value?_symbol (fun {b v} hb => ?_) fun {b c v} hb hc => ?_
  · have hvalue := value?_eq_some hb
    change v < 64
    omega
  · have hvalue := value?_eq_some hb
    have hvalue' := value?_eq_some hc
    exact UInt8.toNat_inj.mp (by omega)

variable {input bytes : List UInt8} {vs : List Nat}

theorem values_eq_ok_iff {start : Nat} :
    values start input = .ok vs ↔ (∀ v ∈ vs, v < 2 ^ 6) ∧ input = vs.map scheme.byte :=
  readBy_value?.values_eq_ok_iff (fun _ => rfl)
    (fun start b bytes vs hb => by rw [values, hb]; simp)
    (fun start b bytes v hb => by rw [values, hb])

/-! ### The last group -/

theorem padding_eq_ok_iff {first : Nat} {n : Nat} :
    padding first bytes = .ok n ↔ bytes = List.replicate n pad := by
  induction bytes generalizing n with
  | nil => cases n <;> simp [padding, replicate_succ]
  | cons b bytes ih =>
    rw [padding]
    split_ifs with hb
    · rw [map_eq_ok_iff, hb]
      simp only [ih]
      cases n <;> simp [replicate_succ]
    · cases n <;> simp [replicate_succ, hb]

/-- A group that is symbols and then padding starts with padding or with a symbol. -/
theorem cons_eq_iff {b : UInt8} {pads : Nat} :
    b :: bytes = vs.map scheme.byte ++ List.replicate pads pad ↔
      (vs = [] ∧ b :: bytes = List.replicate pads pad) ∨
        ∃ v ws, vs = v :: ws ∧ b = scheme.byte v ∧ bytes = ws.map scheme.byte ++ List.replicate pads pad := by
  cases vs <;> simp

/-- The last group is symbols and then padding, which does not start before the third byte. -/
theorem lastGroup_eq_ok_iff {start seen : Nat} {pads : Nat} :
    lastGroup start seen bytes = .ok (vs, pads) ↔ (∀ v ∈ vs, v < 2 ^ 6) ∧
      bytes = vs.map scheme.byte ++ List.replicate pads pad ∧ (pads ≠ 0 → 2 ≤ seen + vs.length) := by
  induction bytes generalizing start seen vs with
  | nil =>
    rw [lastGroup]
    cases vs <;> cases pads <;> simp [replicate_succ]
  | cons b bytes ih =>
    have hsymbol {v : Nat} (hv : v < 2 ^ 6) : scheme.byte v ≠ pad := readBy_value?.byte_ne (by decide) hv
    rw [lastGroup, cons_eq_iff]
    split_ifs with hb hseen
    · refine ⟨(by cases ·), ?_⟩
      rintro ⟨hvs, ⟨rfl, hpad⟩ | ⟨v, ws, rfl, hbyte, -⟩, hpads⟩
      · have hle := hpads (by rintro rfl; cases hpad)
        simp only [length_nil] at hle
        omega
      · exact absurd (hbyte.symm.trans hb) (hsymbol (hvs v mem_cons_self))
    · rw [map_eq_ok_iff]
      constructor
      · rintro ⟨n, hn, heq⟩
        cases heq
        exact ⟨by simp, .inl ⟨rfl, padding_eq_ok_iff.mp hn⟩, fun _ => by omega⟩
      · rintro ⟨hvs, ⟨rfl, hpad⟩ | ⟨v, ws, rfl, hbyte, -⟩, hpads⟩
        · exact ⟨pads, padding_eq_ok_iff.mpr hpad, rfl⟩
        · exact absurd (hbyte.symm.trans hb) (hsymbol (hvs v mem_cons_self))
    · have hnopad : b :: bytes ≠ List.replicate pads pad := by
        intro hpad
        exact hb (eq_of_mem_replicate (hpad ▸ mem_cons_self))
      cases hvalue : value? b with
      | none =>
        refine ⟨(by cases ·), ?_⟩
        rintro ⟨hvs, ⟨-, hpad⟩ | ⟨v, ws, rfl, hbyte, -⟩, -⟩
        · exact absurd hpad hnopad
        · cases hvalue.symm.trans (hbyte ▸ readBy_value?.value?_byte (hvs v mem_cons_self))
      | some v =>
        obtain ⟨hv, hbv⟩ := readBy_value?.eq_some_iff.mp hvalue
        dsimp only
        rw [map_eq_ok_iff]
        constructor
        · rintro ⟨⟨ws, n⟩, hrest, heq⟩
          cases heq
          obtain ⟨hws, hbytes, hpads⟩ := ih.mp hrest
          refine ⟨forall_mem_cons.mpr ⟨hv, hws⟩, .inr ⟨v, ws, rfl, hbv, hbytes⟩, fun hne => ?_⟩
          have hle := hpads hne
          change 2 ≤ seen + (ws.length + 1)
          omega
        · rintro ⟨hvs, ⟨-, hpad⟩ | ⟨w, ws, rfl, hbyte, hbytes⟩, hpads⟩
          · exact absurd hpad hnopad
          · obtain ⟨hw, hws⟩ := forall_mem_cons.mp hvs
            have hwv : some v = some w := hvalue.symm.trans (hbyte ▸ readBy_value?.value?_byte hw)
            refine ⟨(ws, pads), ih.mpr ⟨hws, hbytes, fun hne => ?_⟩, by rw [Option.some.inj hwv]⟩
            have hle := hpads hne
            rw [length_cons] at hle
            omega

/-! ### Whole texts -/

/-- Reading all groups, without the look at a stray last byte. -/
def decodeGroups (input : List UInt8) : Except Fault (List UInt8) := do
  let n := input.length
  let cut := lastStart n
  let front ← values 0 (input.take cut)
  let (back, pads) ← lastGroup cut 0 (input.drop cut)
  if n ≠ 0 ∧ back.length < 2 then throw (.length (cut + back.length))
  if (back.length + pads) % 4 ≠ 0 then throw .padding
  let (bytes, trailing) := regroup 6 (front ++ back)
  let last := cut + back.length - 1
  if trailing.any id then throw (.lastSymbol (input.getD last 0) last)
  return bytes

theorem decode_of_length (h : input.length % 4 ≠ 1) : decode input = decodeGroups input := by
  unfold decode
  dsimp only
  cases input.getLast? with
  | none => rfl
  | some b =>
    dsimp only
    rw [if_neg fun hstray => h hstray.1]
    rfl

theorem decodeGroups_of_decode (h : decode input = .ok bytes) : decodeGroups input = .ok bytes := by
  unfold decode at h
  dsimp only at h
  cases hlast : input.getLast? with
  | none => rw [hlast] at h; exact h
  | some b =>
    rw [hlast] at h
    dsimp only at h
    split_ifs at h
    · cases h
    · exact h

theorem decodeGroups_eq_ok_iff :
    decodeGroups input = .ok bytes ↔ ∃ front back pads,
      values 0 (input.take (lastStart input.length)) = .ok front ∧
      lastGroup (lastStart input.length) 0 (input.drop (lastStart input.length)) = .ok (back, pads) ∧
      (input.length ≠ 0 → 2 ≤ back.length) ∧ (back.length + pads) % 4 = 0 ∧
      (regroup 6 (front ++ back)).1 = bytes ∧ (regroup 6 (front ++ back)).2.any id = false := by
  unfold decodeGroups
  simp only [bind_eq_ok_iff, throw_or_eq_ok_iff]
  constructor
  · rintro ⟨front, hfront, ⟨back, pads⟩, hback, hsymbols, hpadding, hzero, hbytes⟩
    exact ⟨front, back, pads, hfront, hback, fun hne => Nat.le_of_not_lt fun hlt => hsymbols ⟨hne, hlt⟩,
      not_not.mp hpadding, Except.ok.inj hbytes, Bool.eq_false_iff.mpr hzero⟩
  · rintro ⟨front, back, pads, hfront, hback, hsymbols, hpadding, hbytes, hzero⟩
    exact ⟨front, hfront, (back, pads), hback, fun hshort => absurd (hsymbols hshort.1) (Nat.not_le.mpr hshort.2),
      not_not.mpr hpadding, Bool.eq_false_iff.mp hzero, congrArg Except.ok hbytes⟩

theorem utf8_encode (bytes : List UInt8) : Text.utf8 (scheme.encode bytes) =
    (symbolsOfBytes 6 bytes).map scheme.byte ++
      List.replicate (fill 4 (symbolsOfBytes 6 bytes).length) pad := by
  rw [scheme.encode_eq]
  exact readBy_value?.utf8_padded bytes _

/-- No byte string has a last group of one symbol, so at most two places are padded. -/
theorem fill_le_two (bytes : List UInt8) : fill 4 (symbolsOfBytes 6 bytes).length ≤ 2 := by
  have hlength := width_mul_length_symbolsOfBytes scheme.width_pos bytes
  have hbits := fill_lt scheme.width_pos (8 * bytes.length)
  have hpads := fill_lt (show 0 < 4 by decide) (symbolsOfBytes 6 bytes).length
  have hdvd := dvd_add_fill (show 0 < 4 by decide) (symbolsOfBytes 6 bytes).length
  change 6 * (symbolsOfBytes 6 bytes).length = _ at hlength
  change _ < 6 at hbits
  omega

theorem decode_encode (bytes : List UInt8) : decode (Text.utf8 (scheme.encode bytes)) = .ok bytes := by
  rw [utf8_encode]
  have hbound : ∀ v ∈ symbolsOfBytes 6 bytes, v < 2 ^ 6 := fun v hv => symbolsOfBytes_lt scheme.width_pos hv
  have hregroup : regroup 6 (symbolsOfBytes 6 bytes) = (bytes, _) :=
    regroup_symbolsOfBytes scheme.width_pos scheme.width_le bytes
  have hpads := fill_le_two bytes
  have hdvd := dvd_add_fill (show 0 < 4 by decide) (symbolsOfBytes 6 bytes).length
  generalize symbolsOfBytes 6 bytes = vs at hbound hregroup hpads hdvd ⊢
  generalize fill 4 vs.length = pads at hpads hdvd ⊢
  have hlength : (vs.map scheme.byte ++ List.replicate pads pad).length = vs.length + pads := by simp
  rw [decode_of_length (by rw [hlength]; omega), decodeGroups_eq_ok_iff, hlength]
  have hcut : lastStart (vs.length + pads) = (vs.length + pads - 1) / 4 * 4 := rfl
  generalize lastStart (vs.length + pads) = cut at hcut ⊢
  have hle : cut ≤ (vs.map scheme.byte).length := by rw [length_map]; omega
  refine ⟨vs.take cut, vs.drop cut, pads, values_eq_ok_iff.mpr ⟨?_, ?_⟩,
    lastGroup_eq_ok_iff.mpr ⟨?_, ?_, ?_⟩, ?_, ?_, ?_⟩
  · exact fun v hv => hbound v (mem_of_mem_take hv)
  · rw [take_append_of_le_length hle, map_take]
  · exact fun v hv => hbound v (mem_of_mem_drop hv)
  · rw [drop_append_of_le_length hle, map_drop]
  · rw [length_drop]; omega
  · rw [length_drop]; omega
  · rw [length_drop]; omega
  · rw [take_append_drop, hregroup]
    exact ⟨rfl, by simp⟩

theorem eq_encode_of_decode (h : decode input = .ok bytes) : input = Text.utf8 (scheme.encode bytes) := by
  obtain ⟨front, back, pads, hfront, hback, hsymbols, hpadding, hbytes, hzero⟩ :=
    decodeGroups_eq_ok_iff.mp (decodeGroups_of_decode h)
  obtain ⟨hfrontBound, hfrontText⟩ := values_eq_ok_iff.mp hfront
  obtain ⟨hbackBound, hbackText, -⟩ := lastGroup_eq_ok_iff.mp hback
  have hbound : ∀ v ∈ front ++ back, v < 2 ^ 6 := forall_mem_append.mpr ⟨hfrontBound, hbackBound⟩
  have hinput : input = (front ++ back).map scheme.byte ++ List.replicate pads pad := by
    rw [map_append, append_assoc, ← hbackText, ← hfrontText, take_append_drop]
  have hcut : lastStart input.length = (input.length - 1) / 4 * 4 := rfl
  have hfrontLength := congrArg List.length hfrontText
  have hbackLength := congrArg List.length hbackText
  rw [length_take, length_map] at hfrontLength
  rw [length_drop, length_append, length_map, length_replicate] at hbackLength
  have hfill : pads = fill 4 (front ++ back).length :=
    eq_fill (by decide) (by omega) (by rw [length_append]; omega)
  have hvs : front ++ back = symbolsOfBytes 6 bytes :=
    (regroup_eq_iff scheme.width_pos scheme.width_le hbound
      (show 6 * _ % 8 < 6 by rw [length_append]; omega)).mp ⟨hbytes, hzero⟩
  rw [utf8_encode, ← hvs, ← hfill, ← hinput]

/-- A text is accepted just if it is the padded text of the bytes it is read as. -/
theorem decode_eq_ok_iff {text : List Char} :
    decode (Text.utf8 text) = .ok bytes ↔ text = scheme.encode bytes := by
  constructor
  · intro h
    exact Text.utf8_injective (eq_encode_of_decode h)
  · rintro rfl
    exact decode_encode bytes

end Teal.Codec.Base64
