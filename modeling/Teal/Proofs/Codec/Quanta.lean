import Teal.Proofs.Codec.Bits
import Teal.Proofs.Text.Utf8

/-! Base 64 and base 32 as RFC 4648 tells them: bytes are taken in quanta of a fixed size, the number of a
quantum is written in digits of an alphabet, and a short quantum at the end is filled up with zeros and its
text with `=`. The text is the symbols of the whole bit stream, followed by what fills up the last
quantum. -/

namespace Teal.Codec

open List

/-- The last digits of a number in a base, the most significant first. -/
def digits (base : Nat) : (count : Nat) → Nat → List Nat
  | 0, _ => []
  | count + 1, n => n / base ^ count % base :: digits base count n

/-- The number that bytes write, the most significant first. -/
def number : List UInt8 → Nat
  | [] => 0
  | b :: bytes => b.toNat * 256 ^ bytes.length + number bytes

/-- A way to write bytes as text: `size` bytes at a time, in symbols of `width` bits. -/
structure Scheme where
  width : Nat
  size : Nat
  alphabet : List Char
  width_pos : 0 < width := by decide
  width_le : width ≤ 8 := by decide
  size_pos : 0 < size := by decide
  whole : width ∣ 8 * size := by decide

namespace Scheme

variable (S : Scheme)

/-- The number of symbols of a full quantum. -/
def count : Nat := 8 * S.size / S.width

def symbol (n : Nat) : Char := S.alphabet.getD n '='

/-- The text of one quantum, which has at most `size` bytes. Of the digits, those that hold no bit of the
bytes are replaced by `=`. -/
def quantum (bytes : List UInt8) : List Char :=
  let used := (8 * bytes.length + S.width - 1) / S.width
  let all := digits (2 ^ S.width) S.count (number (bytes ++ List.replicate (S.size - bytes.length) 0))
  (all.take used).map S.symbol ++ List.replicate (S.count - used) '='

/-- The padded text of bytes. -/
def encode (bytes : List UInt8) : List Char := (groups S.size bytes).flatMap S.quantum

end Scheme

/-- The standard alphabet of 64 symbols, three bytes in four symbols. -/
def Base64.scheme : Scheme where
  width := 6
  size := 3
  alphabet := "ABCDEFGHIJKLMNOPQRSTUVWXYZabcdefghijklmnopqrstuvwxyz0123456789+/".toList

/-- The alphabet of 32 symbols in upper case, five bytes in eight symbols. -/
def Base32.scheme : Scheme where
  width := 5
  size := 5
  alphabet := "ABCDEFGHIJKLMNOPQRSTUVWXYZ234567".toList

example : Base64.scheme.encode [0x66, 0x6f, 0x6f, 0x62] = "Zm9vYg==".toList := by cbv

example : Base32.scheme.encode [0x66, 0x6f, 0x6f, 0x62] = "MZXW6YQ=".toList := by cbv

/-! ### Digits of a bit stream -/

/-- What stands in front of the last digits does not change them. -/
theorem digits_add (base count k n : Nat) : digits base count (k * base ^ count + n) = digits base count n := by
  induction count generalizing k with
  | zero => rfl
  | succ count ih =>
    rcases Nat.eq_zero_or_pos base with rfl | hbase
    · simp
    · have hsplit : k * base ^ (count + 1) + n = k * base * base ^ count + n := by
        rw [Nat.pow_succ]; ring
      have hhead : (k * base ^ (count + 1) + n) / base ^ count % base = n / base ^ count % base := by
        rw [hsplit, Nat.add_comm, Nat.add_mul_div_right _ _ (Nat.pow_pos hbase), Nat.add_mul_mod_self_right]
      rw [digits, digits, hhead, hsplit, ih]

theorem number_eq (bytes : List UInt8) : number bytes = ofBits (bitsOfBytes bytes) := by
  induction bytes with
  | nil => rfl
  | cons b bytes ih =>
    have hbits : bitsOfBytes (b :: bytes) = bits 8 b.toNat ++ bitsOfBytes bytes := flatMap_cons
    rw [number, hbits, ofBits_append, ofBits_bits, Nat.mod_eq_of_lt b.toNat_lt, length_bitsOfBytes,
      Nat.pow_mul, ← ih]

/-- The digits of the number of a stream are the numbers of its groups. -/
theorem digits_ofBits {width : Nat} (hwidth : 0 < width) {count : Nat} {stream : List Bool}
    (h : stream.length = width * count) :
    digits (2 ^ width) count (ofBits stream) = (groups width stream).map ofBits := by
  induction count generalizing stream with
  | zero => rw [eq_nil_of_length_eq_zero h, groups_nil]; rfl
  | succ count ih =>
    have hle : width ≤ stream.length := by rw [h, Nat.mul_succ]; omega
    have htake : (stream.take width).length = width := length_take_of_le hle
    have hdrop : (stream.drop width).length = width * count := by
      rw [length_drop, h, Nat.mul_succ]; omega
    have hhead : ofBits (stream.take width) < 2 ^ width := by
      have hlt := ofBits_lt (stream.take width)
      rwa [htake] at hlt
    have hrest : ofBits (stream.drop width) < (2 ^ width) ^ count := by
      rw [← Nat.pow_mul, ← hdrop]
      exact ofBits_lt _
    have hsplit : ofBits stream =
        ofBits (stream.take width) * (2 ^ width) ^ count + ofBits (stream.drop width) := by
      conv_lhs => rw [← take_append_drop width stream]
      rw [ofBits_append, hdrop, Nat.pow_mul]
    rw [groups_eq_cons hwidth hle, map_cons, ← ih hdrop, hsplit, digits, digits_add, Nat.add_comm,
      Nat.add_mul_div_right _ _ (Nat.pow_pos (Nat.two_pow_pos width)), Nat.div_eq_of_lt hrest, Nat.zero_add,
      Nat.mod_eq_of_lt hhead]

theorem bitsOfBytes_replicate (n : Nat) :
    bitsOfBytes (List.replicate n 0) = List.replicate (8 * n) false := by
  induction n with
  | zero => rfl
  | succ n ih =>
    have hbits : bitsOfBytes (0 :: List.replicate n 0) = List.replicate 8 false ++ _ := flatMap_cons
    rw [replicate_succ, hbits, ← bitsOfBytes, ih, replicate_append_replicate, Nat.mul_succ, Nat.add_comm]

theorem length_symbolsOfBytes {width : Nat} (hwidth : 0 < width) (bytes : List UInt8) :
    (symbolsOfBytes width bytes).length = (8 * bytes.length + width - 1) / width := by
  have hlength := width_mul_length_symbolsOfBytes hwidth bytes
  have hfill := fill_lt hwidth (8 * bytes.length)
  have hsplit : 8 * bytes.length + width - 1 =
      width * (symbolsOfBytes width bytes).length + (width - 1 - fill width (8 * bytes.length)) := by
    omega
  rw [hsplit, Nat.mul_add_div hwidth, Nat.div_eq_of_lt (by omega), Nat.add_zero]

/-! ### Readers that succeed -/

section Results

variable {ε α β : Type} {x : Except ε α}

theorem map_eq_ok_iff {f : α → β} {b : β} : x.map f = .ok b ↔ ∃ a, x = .ok a ∧ f a = b := by
  cases x <;> simp [Except.map]

theorem bind_eq_ok_iff {f : α → Except ε β} {b : β} : x >>= f = .ok b ↔ ∃ a, x = .ok a ∧ f a = .ok b := by
  cases x <;> simp [Bind.bind, Except.bind]

theorem throw_or_eq_ok_iff {c : Prop} [Decidable c] {e : ε} {f : PUnit → Except ε α} {a : α} :
    (if c then throw e >>= f else x) = .ok a ↔ ¬c ∧ x = .ok a := by
  split_ifs with hc
  · simp only [hc, not_true_eq_false, false_and, iff_false]
    intro h
    cases h
  · simp only [hc, not_false_eq_true, true_and]

end Results

/-! ### Texts by their symbols -/

namespace Scheme

variable (S : Scheme)

theorem width_mul_count : S.width * S.count = 8 * S.size := Nat.mul_div_cancel' S.whole

theorem count_pos : 0 < S.count := by
  have hcount := S.width_mul_count
  have hsize := S.size_pos
  rcases Nat.eq_zero_or_pos S.count with hzero | hpos
  · rw [hzero] at hcount; omega
  · exact hpos

variable {bytes : List UInt8} {v : Nat} {vs : List Nat}

theorem length_symbolsOfBytes_le (h : bytes.length ≤ S.size) :
    (symbolsOfBytes S.width bytes).length ≤ S.count := by
  have hlength := width_mul_length_symbolsOfBytes S.width_pos bytes
  have hfill := fill_lt S.width_pos (8 * bytes.length)
  have hcount := S.width_mul_count
  by_contra hlt
  have hmul : S.width * (S.count + 1) ≤ S.width * (symbolsOfBytes S.width bytes).length :=
    Nat.mul_le_mul_left _ (by omega)
  rw [Nat.mul_succ] at hmul
  omega

/-- The bits of a quantum that is filled up start with those of its symbols. -/
theorem bitsOfBytes_fill (h : bytes.length ≤ S.size) :
    bitsOfBytes (bytes ++ List.replicate (S.size - bytes.length) 0) =
      filled S.width bytes ++
        List.replicate (8 * (S.size - bytes.length) - fill S.width (8 * bytes.length)) false := by
  have hfits : fill S.width (8 * bytes.length) ≤ 8 * (S.size - bytes.length) := by
    rcases Nat.eq_or_lt_of_le h with heq | hlt
    · rw [heq, fill_eq_zero S.whole]
      exact Nat.zero_le _
    · have hfill := fill_lt S.width_pos (8 * bytes.length)
      have hle := S.width_le
      omega
  rw [bitsOfBytes_append, bitsOfBytes_replicate, filled, append_assoc, replicate_append_replicate,
    Nat.add_sub_cancel' hfits]

theorem quantum_eq (h : bytes.length ≤ S.size) :
    S.quantum bytes = (symbolsOfBytes S.width bytes).map S.symbol ++
      List.replicate (S.count - (symbolsOfBytes S.width bytes).length) '=' := by
  have hall : (bitsOfBytes (bytes ++ List.replicate (S.size - bytes.length) 0)).length =
      S.width * S.count := by
    rw [length_bitsOfBytes, length_append, length_replicate, Nat.add_sub_cancel' h, S.width_mul_count]
  have hdvd : S.width ∣ (filled S.width bytes).length := by
    rw [length_filled]
    exact dvd_add_fill S.width_pos _
  simp only [quantum, ← length_symbolsOfBytes S.width_pos]
  rw [number_eq, digits_ofBits S.width_pos hall, S.bitsOfBytes_fill h, groups_append S.width_pos hdvd,
    map_append, ← symbolsOfBytes_eq S.width_pos, take_left]

/-- The text of bytes is their symbols and as many `=` as fill up the last quantum. -/
theorem encode_eq (bytes : List UInt8) :
    S.encode bytes = (symbolsOfBytes S.width bytes).map S.symbol ++
      List.replicate (fill S.count (symbolsOfBytes S.width bytes).length) '=' := by
  by_cases hle : bytes.length ≤ S.size
  · rcases eq_or_ne bytes [] with rfl | hne
    · simp [encode, symbolsOfBytes, bitsOfBytes, fill]
    · have hused := S.length_symbolsOfBytes_le hle
      have hpos : 0 < (symbolsOfBytes S.width bytes).length := by
        have hlength := width_mul_length_symbolsOfBytes S.width_pos bytes
        have hbytes := length_pos_iff.mpr hne
        refine Nat.pos_of_ne_zero fun hzero => ?_
        rw [hzero] at hlength
        omega
      have hfill : S.count - (symbolsOfBytes S.width bytes).length =
          fill S.count (symbolsOfBytes S.width bytes).length :=
        eq_fill S.count_pos (by omega) ⟨1, by omega⟩
      rw [encode, groups_of_length_le hne hle, flatMap_singleton, S.quantum_eq hle, hfill]
  · have hsize : S.size ≤ bytes.length := by omega
    have htake : (bytes.take S.size).length = S.size := length_take_of_le hsize
    have hdvd : S.width ∣ 8 * (bytes.take S.size).length := by rw [htake]; exact S.whole
    have hcount : (symbolsOfBytes S.width (bytes.take S.size)).length = S.count := by
      have hlength := width_mul_length_symbolsOfBytes S.width_pos (bytes.take S.size)
      rw [fill_eq_zero hdvd, htake, Nat.add_zero, ← S.width_mul_count] at hlength
      exact Nat.eq_of_mul_eq_mul_left S.width_pos hlength
    have hsymbols : symbolsOfBytes S.width bytes =
        symbolsOfBytes S.width (bytes.take S.size) ++ symbolsOfBytes S.width (bytes.drop S.size) := by
      conv_lhs => rw [← take_append_drop S.size bytes]
      exact symbolsOfBytes_append S.width_pos hdvd _
    have hrest := encode_eq (bytes.drop S.size)
    rw [encode] at hrest ⊢
    rw [groups_eq_cons S.size_pos hsize, flatMap_cons, hrest, S.quantum_eq (Nat.le_of_eq htake), hsymbols,
      hcount, Nat.sub_self, replicate_zero, append_nil, map_append, length_append, hcount,
      append_assoc, fill, fill, Nat.add_mod_left]
termination_by bytes.length
decreasing_by
  have hpos := S.size_pos
  rw [length_drop]
  omega

/-! ### Reading symbols -/

def byte (n : Nat) : UInt8 := UInt8.ofNat (S.symbol n).toNat

/-- A function gives the values of the bytes of symbols, and no other byte has a value. -/
structure ReadBy (value? : UInt8 → Option Nat) : Prop where
  ascii : ∀ {v : Nat}, v < 2 ^ S.width → (S.symbol v).toNat < 128
  eq_some_iff : ∀ {b : UInt8} {v : Nat}, value? b = some v ↔ v < 2 ^ S.width ∧ b = S.byte v

variable {S} {value? : UInt8 → Option Nat}

/-- It is enough that symbols have their values and that no two bytes have the same. -/
theorem readBy_of_injective
    (hsymbol : ∀ v < 2 ^ S.width, (S.symbol v).toNat < 128 ∧ value? (S.byte v) = some v)
    (hlt : ∀ {b : UInt8} {v : Nat}, value? b = some v → v < 2 ^ S.width)
    (hbyte : ∀ {b c : UInt8} {v : Nat}, value? b = some v → value? c = some v → b = c) : S.ReadBy value? := by
  refine ⟨fun {v} hv => (hsymbol v hv).1, ?_⟩
  intro b v
  constructor
  · intro hvalue
    have hv := hlt hvalue
    exact ⟨hv, hbyte hvalue (hsymbol v hv).2⟩
  · rintro ⟨hv, rfl⟩
    exact (hsymbol v hv).2

variable (h : S.ReadBy value?)

include h

theorem ReadBy.value?_byte (hv : v < 2 ^ S.width) : value? (S.byte v) = some v :=
  h.eq_some_iff.mpr ⟨hv, rfl⟩

/-- Where `=` has no value, it is no symbol. -/
theorem ReadBy.byte_ne (hpad : value? 61 = none) (hv : v < 2 ^ S.width) : S.byte v ≠ 61 := by
  intro heq
  cases hpad.symm.trans (heq ▸ h.value?_byte hv)

theorem ReadBy.symbol_ne (hpad : value? 61 = none) (hv : v < 2 ^ S.width) : S.symbol v ≠ '=' := by
  intro heq
  exact h.byte_ne hpad hv (by rw [byte, heq]; rfl)

theorem ReadBy.utf8_symbols (hvs : ∀ v ∈ vs, v < 2 ^ S.width) :
    Text.utf8 (vs.map S.symbol) = vs.map S.byte := by
  have hascii : ∀ c ∈ vs.map S.symbol, c.toNat < 128 := by
    intro c hc
    obtain ⟨v, hv, rfl⟩ := mem_map.mp hc
    exact h.ascii (hvs v hv)
  rw [Text.utf8_of_ascii hascii, map_map]
  rfl

theorem ReadBy.map_eq_iff {input : List UInt8} :
    input.map value? = vs.map some ↔ (∀ v ∈ vs, v < 2 ^ S.width) ∧ input = vs.map S.byte := by
  induction input generalizing vs with
  | nil => cases vs <;> simp
  | cons b input ih =>
    cases vs with
    | nil => simp
    | cons v vs =>
      simp only [map_cons, List.cons.injEq, h.eq_some_iff, ih, forall_mem_cons]
      constructor
      · rintro ⟨⟨hv, hb⟩, hvs, hinput⟩
        exact ⟨⟨hv, hvs⟩, hb, hinput⟩
      · rintro ⟨⟨hv, hvs⟩, hb, hinput⟩
        exact ⟨⟨hv, hb⟩, hvs, hinput⟩

/-- A function that takes values byte by byte accepts symbols and nothing else. -/
theorem ReadBy.values_eq_ok_iff {ε : Type}
    {values : Nat → List UInt8 → Except ε (List Nat)} (hnil : ∀ start, values start [] = .ok [])
    (hnone : ∀ start b bytes vs, value? b = none → values start (b :: bytes) ≠ .ok vs)
    (hsome : ∀ start b bytes v, value? b = some v →
      values start (b :: bytes) = (values (start + 1) bytes).map (v :: ·)) {start : Nat}
    {input : List UInt8} :
    values start input = .ok vs ↔ (∀ v ∈ vs, v < 2 ^ S.width) ∧ input = vs.map S.byte := by
  rw [← h.map_eq_iff]
  induction input generalizing start vs with
  | nil =>
    rw [hnil]
    cases vs <;> simp
  | cons b input ih =>
    cases hb : value? b with
    | none =>
      refine ⟨fun hok => absurd hok (hnone start b input vs hb), ?_⟩
      cases vs <;> simp [hb]
    | some v =>
      rw [hsome start b input v hb, map_eq_ok_iff]
      simp only [ih, map_cons, hb]
      constructor
      · rintro ⟨ws, hws, rfl⟩
        rw [hws, map_cons]
      · intro heq
        cases vs with
        | nil => cases heq
        | cons w ws =>
          obtain ⟨hv, hws⟩ := List.cons.inj heq
          exact ⟨ws, hws, by rw [Option.some.inj hv]⟩

theorem ReadBy.utf8_padded (bytes : List UInt8) (n : Nat) :
    Text.utf8 ((symbolsOfBytes S.width bytes).map S.symbol ++ List.replicate n '=') =
      (symbolsOfBytes S.width bytes).map S.byte ++ List.replicate n 61 := by
  have hpads : Text.utf8 (List.replicate n '=') = List.replicate n 61 := by
    rw [Text.utf8_of_ascii fun c hc => (eq_of_mem_replicate hc) ▸ by decide, map_replicate]
    rfl
  rw [Text.utf8_append, hpads, h.utf8_symbols fun v hv => symbolsOfBytes_lt S.width_pos hv]

end Scheme

end Teal.Codec
