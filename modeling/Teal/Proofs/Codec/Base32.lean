import Teal.Codec.Base32
import Teal.Proofs.Codec.Quanta

/-! Base 32 read back. Without padding, a text is accepted just if it is the text of the bytes that it is
read as. The padded text of bytes is read block by block, one block for each quantum. -/

namespace Teal.Codec.Base32

open List

theorem value?_eq_some {b : UInt8} {v : Nat} (h : value? b = some v) :
    v < 26 ∧ b.toNat = v + 65 ∨ 26 ≤ v ∧ v < 32 ∧ b.toNat = v + 24 := by
  simp only [value?] at h
  split_ifs at h <;> have hv := Option.some.inj h <;> omega

theorem value?_byte : ∀ v < 32, (scheme.symbol v).toNat < 128 ∧ value? (scheme.byte v) = some v := by decide

theorem readBy_value? : scheme.ReadBy value? := by
  refine Scheme.readBy_of_injective value?_byte (fun {b v} hb => ?_) fun {b c v} hb hc => ?_
  · have hvalue := value?_eq_some hb
    change v < 32
    omega
  · have hvalue := value?_eq_some hb
    have hvalue' := value?_eq_some hc
    exact UInt8.toNat_inj.mp (by omega)

theorem symbol_eq : ∀ v < 32, symbol v = scheme.symbol v := by decide

theorem encodeUnpadded_eq (bytes : List UInt8) :
    encodeUnpadded bytes = (symbolsOfBytes 5 bytes).map scheme.symbol :=
  map_congr_left fun v hv => symbol_eq v (symbolsOfBytes_lt scheme.width_pos hv)

theorem utf8_encodeUnpadded (bytes : List UInt8) :
    Text.utf8 (encodeUnpadded bytes) = (symbolsOfBytes 5 bytes).map scheme.byte := by
  rw [encodeUnpadded_eq]
  exact readBy_value?.utf8_symbols fun v hv => symbolsOfBytes_lt scheme.width_pos hv

theorem length_encodeUnpadded (bytes : List UInt8) :
    (encodeUnpadded bytes).length = (8 * bytes.length + 4) / 5 := by
  rw [encodeUnpadded, length_map]
  exact length_symbolsOfBytes scheme.width_pos bytes

theorem length_utf8_encodeUnpadded (bytes : List UInt8) :
    (Text.utf8 (encodeUnpadded bytes)).length = (encodeUnpadded bytes).length := by
  rw [utf8_encodeUnpadded, encodeUnpadded, length_map, length_map]

/-! ### Texts without padding -/

variable {input bytes : List UInt8} {text : List Char}

theorem values_eq_ok_iff {start : Nat} {vs : List Nat} :
    values start input = .ok vs ↔ (∀ v ∈ vs, v < 2 ^ 5) ∧ input = vs.map scheme.byte :=
  readBy_value?.values_eq_ok_iff (fun _ => rfl)
    (fun start b bytes vs hb => by rw [values, hb]; simp)
    (fun start b bytes v hb => by rw [values, hb])

theorem decodeSymbols_eq_ok_iff {start : Nat} (hlength : 5 * input.length % 8 < 5) :
    decodeSymbols start input = .ok bytes ↔ input = Text.utf8 (encodeUnpadded bytes) := by
  rw [utf8_encodeUnpadded, decodeSymbols]
  constructor
  · intro h
    split at h
    · cases h
    · next vs hvs =>
      obtain ⟨hbound, rfl⟩ := values_eq_ok_iff.mp hvs
      rw [length_map] at hlength
      dsimp only at h
      split_ifs at h with hany
      have hbytes := Except.ok.inj h
      exact congrArg (List.map scheme.byte) ((regroup_eq_iff scheme.width_pos scheme.width_le hbound hlength).mp
        ⟨hbytes, Bool.eq_false_iff.mpr hany⟩)
  · rintro rfl
    have hbound : ∀ v ∈ symbolsOfBytes 5 bytes, v < 2 ^ 5 := fun v hv => symbolsOfBytes_lt (by decide) hv
    rw [values_eq_ok_iff.mpr ⟨hbound, rfl⟩]
    simp [regroup_symbolsOfBytes]

/-- A text without padding is accepted just if it is what is written for the bytes it is read as. -/
theorem decodeUnpadded_eq_ok_iff :
    decodeUnpadded input = .ok bytes ↔ input = Text.utf8 (encodeUnpadded bytes) := by
  rw [decodeUnpadded]
  split_ifs with hlength
  · refine ⟨(by cases ·), ?_⟩
    rintro rfl
    have hlt : 5 * (symbolsOfBytes 5 bytes).length % 8 < 5 :=
      width_mul_length_mod_lt scheme.width_pos scheme.width_le bytes
    rw [utf8_encodeUnpadded, length_map] at hlength
    omega
  · exact decodeSymbols_eq_ok_iff (by omega)

/-! ### Padded texts -/

/-- Padding is cut off from the end of a block. -/
theorem strip_padding {vs : List Nat} (hvs : ∀ v ∈ vs, v < 2 ^ 5) (n : Nat) :
    ((vs.map scheme.byte ++ List.replicate n 61).reverse.dropWhile (· == 61)).reverse = vs.map scheme.byte := by
  have hkeep : (vs.map scheme.byte).reverse.dropWhile (· == 61) = (vs.map scheme.byte).reverse := by
    cases hrev : (vs.map scheme.byte).reverse with
    | nil => rfl
    | cons b bs =>
      have hb : b ∈ vs.map scheme.byte := mem_reverse.mp (hrev ▸ mem_cons_self)
      obtain ⟨v, hv, rfl⟩ := mem_map.mp hb
      refine dropWhile_cons_of_neg fun heq => ?_
      exact readBy_value?.byte_ne (by decide) (hvs v hv) (eq_of_beq heq)
  rw [reverse_append, reverse_replicate, dropWhile_append_of_pos (by simp), hkeep,
    reverse_reverse]

theorem decodeBlock_quantum {g : List UInt8} (hpos : 0 < g.length) (hle : g.length ≤ 5) (start : Nat) :
    decodeBlock start (Text.utf8 (scheme.quantum g)) = .ok g := by
  have hbound : ∀ v ∈ symbolsOfBytes 5 g, v < 2 ^ 5 := fun v hv => symbolsOfBytes_lt scheme.width_pos hv
  have hlength := length_symbolsOfBytes scheme.width_pos g
  have htext := utf8_encodeUnpadded g
  rw [scheme.quantum_eq hle, readBy_value?.utf8_padded]
  change (symbolsOfBytes 5 g).length = (8 * g.length + 5 - 1) / 5 at hlength
  change decodeBlock start ((symbolsOfBytes 5 g).map scheme.byte ++ List.replicate _ 61) = _
  simp only [decodeBlock, strip_padding hbound, length_map]
  rw [if_pos (by omega)]
  refine (decodeSymbols_eq_ok_iff ?_).mpr htext.symm
  rw [length_map]
  exact width_mul_length_mod_lt scheme.width_pos scheme.width_le g

theorem decodeBlocks_quanta {gs : List (List UInt8)} (hgs : ∀ g ∈ gs, 0 < g.length ∧ g.length ≤ 5)
    (start : Nat) : decodeBlocks start (gs.map fun g => Text.utf8 (scheme.quantum g)) = .ok gs.flatten := by
  induction gs generalizing start with
  | nil => rfl
  | cons g gs ih =>
    obtain ⟨hpos, hle⟩ := hgs g mem_cons_self
    rw [map_cons, decodeBlocks, decodeBlock_quantum hpos hle, ih fun g' hg' => hgs g' (mem_cons_of_mem g hg')]
    rfl

theorem decodePadded_encode (bytes : List UInt8) :
    decodePadded (Text.utf8 (scheme.encode bytes)) = .ok bytes := by
  have hgroups : ∀ g ∈ groups 5 bytes, 0 < g.length ∧ g.length ≤ 5 :=
    fun g hg => length_of_mem_groups (by decide) hg
  have htext : Text.utf8 (scheme.encode bytes) =
      (groups 5 bytes).flatMap fun g => Text.utf8 (scheme.quantum g) := by
    rw [Text.utf8, Scheme.encode, flatMap_assoc]
    rfl
  have hlength : ∀ g ∈ groups 5 bytes, (Text.utf8 (scheme.quantum g)).length = 8 := by
    intro g hg
    have hcount := scheme.length_symbolsOfBytes_le (hgroups g hg).2
    rw [scheme.quantum_eq (hgroups g hg).2, readBy_value?.utf8_padded, length_append, length_map,
      length_replicate, Nat.add_sub_cancel' hcount]
    rfl
  have hmod : ((groups 5 bytes).flatMap fun g => Text.utf8 (scheme.quantum g)).length % 8 = 0 := by
    rw [length_flatMap_of_length hlength, Nat.mul_mod_right]
  rw [decodePadded, htext, if_neg (not_not.mpr hmod), groups_flatMap (by decide) hlength,
    decodeBlocks_quanta hgroups, flatten_groups]

/-! ### Texts of both kinds -/

theorem pad_notMem_encodeUnpadded (bytes : List UInt8) : '=' ∉ encodeUnpadded bytes := by
  rw [encodeUnpadded_eq]
  intro h
  obtain ⟨v, hv, heq⟩ := mem_map.mp h
  exact readBy_value?.symbol_ne (by decide) (symbolsOfBytes_lt scheme.width_pos hv) heq

theorem filter_of_notMem (h : '=' ∉ text) : text.filter (· ≠ '=') = text := by
  refine filter_eq_self.mpr fun c hc => ?_
  exact decide_eq_true fun heq => h (heq ▸ hc)

/-- The text without padding is the padded one less its padding. -/
theorem filter_encode (bytes : List UInt8) :
    (scheme.encode bytes).filter (· ≠ '=') = encodeUnpadded bytes := by
  have hpads (n : Nat) : (List.replicate n '=').filter (· ≠ '=') = [] := by simp
  have hsymbols := filter_of_notMem (pad_notMem_encodeUnpadded bytes)
  rw [encodeUnpadded_eq] at hsymbols ⊢
  rw [scheme.encode_eq, filter_append, hpads, append_nil]
  exact hsymbols

theorem mem_utf8_iff (text : List Char) : 61 ∈ Text.utf8 text ↔ '=' ∈ text := by
  rw [Text.utf8, mem_flatMap]
  constructor
  · rintro ⟨c, hc, hmem⟩
    have hnat : c.toNat = '='.toNat := Text.toNat_of_mem_utf8EncodeChar hmem (by decide)
    exact Char.toNat_inj.mp hnat ▸ hc
  · intro hpad
    exact ⟨'=', hpad, by decide⟩

end Teal.Codec.Base32
