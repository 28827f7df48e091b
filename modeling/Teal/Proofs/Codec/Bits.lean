import Mathlib.Data.Nat.ModEq
import Mathlib.Tactic.Ring
import Teal.Codec.Bits

/-! Bit streams cut into bytes or into symbols of another width. Bytes are determined by their symbols, and
symbols come from bytes just if the bits that fill no byte are zero and fewer than a symbol has. So reading
the symbols of a byte string gives it back, and no other row of symbols does. -/

namespace Teal.Codec

open List

/-! ### Bits of a number -/

@[simp] theorem length_bits (width n : Nat) : (bits width n).length = width := by
  induction width with
  | zero => rfl
  | succ width ih => rw [bits, length_cons, ih]

theorem foldl_bits (bs : List Bool) (acc : Nat) :
    bs.foldl (fun acc b => 2 * acc + b.toNat) acc = acc * 2 ^ bs.length + ofBits bs := by
  induction bs generalizing acc with
  | nil => simp [ofBits]
  | cons b bs ih =>
    rw [ofBits, foldl_cons, foldl_cons, ih, ih, length_cons, Nat.pow_succ]
    ring

theorem ofBits_cons (b : Bool) (bs : List Bool) : ofBits (b :: bs) = b.toNat * 2 ^ bs.length + ofBits bs := by
  rw [ofBits, foldl_cons, foldl_bits, Nat.mul_zero, Nat.zero_add]

theorem ofBits_append (bs cs : List Bool) : ofBits (bs ++ cs) = ofBits bs * 2 ^ cs.length + ofBits cs := by
  rw [ofBits, foldl_append, foldl_bits]
  rfl

theorem ofBits_lt (bs : List Bool) : ofBits bs < 2 ^ bs.length := by
  induction bs with
  | nil => decide
  | cons b bs ih =>
    rw [ofBits_cons, length_cons, Nat.pow_succ]
    cases b <;> simp <;> omega

/-- Reading the low bits of a number forgets the others. -/
theorem ofBits_bits (width n : Nat) : ofBits (bits width n) = n % 2 ^ width := by
  induction width with
  | zero => rw [Nat.pow_zero, Nat.mod_one]; rfl
  | succ width ih =>
    rw [bits, ofBits_cons, length_bits, ih, Nat.toNat_testBit, Nat.mod_pow_succ, Nat.mul_comm, Nat.add_comm]

/-- Bits of one length are determined by their number. -/
theorem eq_of_ofBits_eq {bs cs : List Bool} (hlength : bs.length = cs.length)
    (h : ofBits bs = ofBits cs) : bs = cs := by
  induction bs generalizing cs with
  | nil => exact (eq_nil_of_length_eq_zero hlength.symm).symm
  | cons b bs ih =>
    cases cs with
    | nil => cases hlength
    | cons c cs =>
      have hrest : bs.length = cs.length := Nat.succ.inj hlength
      have hbs := ofBits_lt bs
      have hcs := ofBits_lt cs
      rw [ofBits_cons, ofBits_cons, hrest] at h
      rw [hrest] at hbs
      cases b <;> cases c <;> simp at h
      · rw [ih hrest h]
      · omega
      · omega
      · rw [ih hrest h]

theorem bits_ofBits (bs : List Bool) : bits bs.length (ofBits bs) = bs := by
  apply eq_of_ofBits_eq (length_bits _ _)
  rw [ofBits_bits, Nat.mod_eq_of_lt (ofBits_lt bs)]

/-! ### Groups -/

section Groups

variable {α β : Type} {size : Nat}

@[simp] theorem groups_nil : groups size ([] : List α) = [] := by
  rw [groups]

variable {g l as : List α} {f : α → List β}

/-- A full group at the front is the first one. -/
theorem groups_append_of_length (hsize : 0 < size) (hg : g.length = size) (rest : List α) :
    groups size (g ++ rest) = g :: groups size rest := by
  cases g with
  | nil => simp only [length_nil] at hg; omega
  | cons x xs =>
    have hxs : xs.length = size - 1 := by rw [length_cons] at hg; omega
    rw [cons_append, groups, take_left' hxs, drop_left' hxs]

/-- What is not longer than a group is one. -/
theorem groups_of_length_le (hne : l ≠ []) (hl : l.length ≤ size) : groups size l = [l] := by
  cases l with
  | nil => exact absurd rfl hne
  | cons x xs =>
    have hxs : xs.length ≤ size - 1 := by rw [length_cons] at hl; omega
    rw [groups, take_of_length_le hxs, drop_of_length_le hxs, groups_nil]

theorem groups_eq_cons (hsize : 0 < size) (hl : size ≤ l.length) :
    groups size l = l.take size :: groups size (l.drop size) := by
  conv_lhs => rw [← take_append_drop size l]
  exact groups_append_of_length hsize (length_take_of_le hl) _

/-- Groups of a list whose length they divide. -/
theorem groups_append (hsize : 0 < size) (hl : size ∣ l.length) (rest : List α) :
    groups size (l ++ rest) = groups size l ++ groups size rest := by
  obtain ⟨n, hn⟩ := hl
  induction n generalizing l with
  | zero =>
    rw [eq_nil_of_length_eq_zero hn, nil_append, groups_nil, nil_append]
  | succ n ih =>
    have hle : size ≤ l.length := by rw [hn, Nat.mul_succ]; omega
    have hdrop : (l.drop size).length = size * n := by
      rw [length_drop, hn, Nat.mul_succ]; omega
    rw [groups_eq_cons hsize hle, cons_append, ← ih hdrop]
    conv_lhs => rw [← take_append_drop size l, append_assoc]
    exact groups_append_of_length hsize (length_take_of_le hle) _

theorem length_flatMap_of_length (hf : ∀ a ∈ as, (f a).length = size) :
    (as.flatMap f).length = size * as.length := by
  induction as with
  | nil => rfl
  | cons a as ih =>
    rw [flatMap_cons, length_append, hf a mem_cons_self,
      ih fun b hb => hf b (mem_cons_of_mem a hb), length_cons, Nat.mul_succ, Nat.add_comm]

theorem groups_flatMap (hsize : 0 < size) (hf : ∀ a ∈ as, (f a).length = size) :
    groups size (as.flatMap f) = as.map f := by
  induction as with
  | nil => exact groups_nil
  | cons a as ih =>
    rw [flatMap_cons, groups_append_of_length hsize (hf a mem_cons_self),
      ih fun b hb => hf b (mem_cons_of_mem a hb), map_cons]

theorem flatten_groups (l : List α) : (groups size l).flatten = l := by
  fun_induction groups size l with
  | case1 => rfl
  | case2 x xs ih => rw [flatten_cons, ih, cons_append, take_append_drop]

theorem length_of_mem_groups (hsize : 0 < size) (h : g ∈ groups size l) : 0 < g.length ∧ g.length ≤ size := by
  fun_induction groups size l with
  | case1 => cases h
  | case2 x xs ih =>
    rcases mem_cons.mp h with rfl | hrest
    · rw [length_cons, length_take]
      omega
    · exact ih hrest

/-- A list whose length groups divide is made of full ones. -/
theorem exists_flatten_of_dvd (l : List α) (hl : size ∣ l.length) :
    ∃ gs : List (List α), (∀ g ∈ gs, g.length = size) ∧ l = gs.flatten := by
  obtain ⟨n, hn⟩ := hl
  induction n generalizing l with
  | zero => exact ⟨[], by simp, eq_nil_of_length_eq_zero hn⟩
  | succ n ih =>
    have hle : size ≤ l.length := by rw [hn, Nat.mul_succ]; omega
    obtain ⟨gs, hgs, hdrop⟩ := ih (l.drop size) (by rw [length_drop, hn, Nat.mul_succ]; omega)
    refine ⟨l.take size :: gs, ?_, ?_⟩
    · intro g hg
      rcases mem_cons.mp hg with rfl | hg
      · exact length_take_of_le hle
      · exact hgs g hg
    · rw [flatten_cons, ← hdrop, take_append_drop]

theorem groups_flatten (hsize : 0 < size) {gs : List (List α)} (hgs : ∀ g ∈ gs, g.length = size) :
    groups size gs.flatten = gs := by
  induction gs with
  | nil => exact groups_nil
  | cons g gs ih =>
    rw [flatten_cons, groups_append_of_length hsize (hgs g mem_cons_self),
      ih fun g' hg' => hgs g' (mem_cons_of_mem g hg')]

end Groups

/-! ### Bytes -/

theorem length_bitsOfBytes (bytes : List UInt8) : (bitsOfBytes bytes).length = 8 * bytes.length := by
  rw [bitsOfBytes, length_flatMap_of_length fun b _ => length_bits 8 b.toNat]

theorem bitsOfBytes_append (bytes more : List UInt8) :
    bitsOfBytes (bytes ++ more) = bitsOfBytes bytes ++ bitsOfBytes more :=
  flatMap_append

theorem bytesOfBits_bitsOfBytes (bytes : List UInt8) : bytesOfBits (bitsOfBytes bytes) = bytes := by
  rw [bytesOfBits, bitsOfBytes, groups_flatMap (show 0 < 8 by decide) fun b _ => length_bits 8 b.toNat, map_map]
  conv_rhs => rw [← map_id bytes]
  apply map_congr_left
  intro b _
  rw [Function.comp_apply, ofBits_bits, Nat.mod_eq_of_lt b.toNat_lt, UInt8.ofNat_toNat, id_eq]

theorem bitsOfBytes_bytesOfBits {stream : List Bool} (h : 8 ∣ stream.length) :
    bitsOfBytes (bytesOfBits stream) = stream := by
  obtain ⟨gs, hgs, rfl⟩ := exists_flatten_of_dvd stream h
  rw [bytesOfBits, groups_flatten (show 0 < 8 by decide) hgs, bitsOfBytes, flatMap_map, flatMap_def]
  congr 1
  conv_rhs => rw [← map_id gs]
  apply map_congr_left
  intro g hg
  have hlt : ofBits g < 2 ^ 8 := hgs g hg ▸ ofBits_lt g
  rw [UInt8.toNat_ofNat_of_lt' hlt, ← hgs g hg, bits_ofBits, id_eq]

/-! ### Symbols -/

/-- The number of zero bits that fill up the last symbol of a stream. -/
def fill (width n : Nat) : Nat := (width - n % width) % width

section Symbols

variable {width : Nat}

theorem fill_lt (hwidth : 0 < width) (n : Nat) : fill width n < width := Nat.mod_lt _ hwidth

theorem dvd_add_fill (hwidth : 0 < width) (n : Nat) : width ∣ n + fill width n := by
  have hmod := Nat.mod_lt n hwidth
  have hdiv := Nat.div_add_mod n width
  unfold fill
  rcases Nat.eq_zero_or_pos (n % width) with hzero | hpos
  · rw [hzero, Nat.sub_zero, Nat.mod_self, Nat.add_zero]
    exact Nat.dvd_of_mod_eq_zero hzero
  · rw [Nat.mod_eq_of_lt (by omega)]
    exact ⟨n / width + 1, by rw [Nat.mul_succ]; omega⟩

variable {n : Nat} {bytes : List UInt8} {vs : List Nat}

/-- Fewer zero bits than a symbol has, if they complete one, are those that fill it up. -/
theorem eq_fill (hwidth : 0 < width) {k : Nat} (hk : k < width) (h : width ∣ n + k) : k = fill width n := by
  have hfill := fill_lt hwidth n
  have hmod : (n + k) % width = (n + fill width n) % width := by
    rw [Nat.mod_eq_zero_of_dvd h, Nat.mod_eq_zero_of_dvd (dvd_add_fill hwidth n)]
  have hcancel : k % width = fill width n % width := Nat.ModEq.add_left_cancel' n hmod
  rwa [Nat.mod_eq_of_lt hk, Nat.mod_eq_of_lt hfill] at hcancel

theorem fill_eq_zero (h : width ∣ n) : fill width n = 0 := by
  rw [fill, Nat.mod_eq_zero_of_dvd h, Nat.sub_zero, Nat.mod_self]

/-- Filling up the last group is filling up the stream. -/
theorem map_groups_fill (hwidth : 0 < width) (stream : List Bool) :
    ((groups width stream).map fun g => ofBits (g ++ List.replicate (width - g.length) false)) =
      (groups width (stream ++ List.replicate (fill width stream.length) false)).map ofBits := by
  by_cases hle : width ≤ stream.length
  · have hmod : fill width stream.length = fill width (stream.drop width).length := by
      rw [length_drop, fill, fill, ← Nat.mod_eq_sub_mod hle]
    have htake : (stream.take width).length = width := length_take_of_le hle
    rw [groups_eq_cons hwidth hle, map_cons, map_groups_fill hwidth (stream.drop width), ← hmod,
      htake, Nat.sub_self, replicate_zero, append_nil]
    conv_rhs => rw [← take_append_drop width stream, append_assoc,
      groups_append_of_length hwidth htake, map_cons, take_append_drop]
  · cases stream with
    | nil => simp [fill]
    | cons b bs =>
      have hlt : (b :: bs).length < width := Nat.lt_of_not_le hle
      have hpos : 0 < (b :: bs).length := Nat.succ_pos _
      have hfill : fill width (b :: bs).length = width - (b :: bs).length := by
        rw [fill, Nat.mod_eq_of_lt hlt, Nat.mod_eq_of_lt (by omega)]
      rw [groups_of_length_le (cons_ne_nil b bs) (Nat.le_of_lt hlt), hfill,
        groups_of_length_le (by simp) (by rw [length_append, length_replicate]; omega),
        map_singleton, map_singleton]
termination_by stream.length
decreasing_by rw [length_drop]; omega

def filled (width : Nat) (bytes : List UInt8) : List Bool :=
  bitsOfBytes bytes ++ List.replicate (fill width (8 * bytes.length)) false

theorem symbolsOfBytes_eq (hwidth : 0 < width) (bytes : List UInt8) :
    symbolsOfBytes width bytes = (groups width (filled width bytes)).map ofBits := by
  rw [symbolsOfBytes, map_groups_fill hwidth, length_bitsOfBytes, filled]

theorem length_filled (bytes : List UInt8) :
    (filled width bytes).length = 8 * bytes.length + fill width (8 * bytes.length) := by
  rw [filled, length_append, length_bitsOfBytes, length_replicate]

/-- Symbols are the numbers of full groups. -/
theorem exists_groups_symbolsOfBytes (hwidth : 0 < width) (bytes : List UInt8) :
    ∃ gs : List (List Bool), (∀ g ∈ gs, g.length = width) ∧ filled width bytes = gs.flatten ∧
      symbolsOfBytes width bytes = gs.map ofBits := by
  have hdvd : width ∣ (filled width bytes).length := by
    rw [length_filled]
    exact dvd_add_fill hwidth _
  obtain ⟨gs, hgs, hstream⟩ := exists_flatten_of_dvd _ hdvd
  exact ⟨gs, hgs, hstream, by rw [symbolsOfBytes_eq hwidth, hstream, groups_flatten hwidth hgs]⟩

theorem symbolsOfBytes_lt (hwidth : 0 < width) {v : Nat} (h : v ∈ symbolsOfBytes width bytes) :
    v < 2 ^ width := by
  obtain ⟨gs, hgs, _, hsymbols⟩ := exists_groups_symbolsOfBytes hwidth bytes
  rw [hsymbols] at h
  obtain ⟨g, hg, rfl⟩ := mem_map.mp h
  exact hgs g hg ▸ ofBits_lt g

theorem flatMap_symbolsOfBytes (hwidth : 0 < width) (bytes : List UInt8) :
    (symbolsOfBytes width bytes).flatMap (bits width) = filled width bytes := by
  obtain ⟨gs, hgs, hstream, hsymbols⟩ := exists_groups_symbolsOfBytes hwidth bytes
  rw [hsymbols, hstream, flatMap_map, flatMap_def]
  congr 1
  conv_rhs => rw [← map_id gs]
  apply map_congr_left
  intro g hg
  rw [← hgs g hg, bits_ofBits, id_eq]

theorem length_flatMap_bits (vs : List Nat) : (vs.flatMap (bits width)).length = width * vs.length := by
  rw [length_flatMap_of_length fun v _ => length_bits width v]

variable (hwidth : 0 < width)

include hwidth

/-- The number of symbols, with the bits that they have. -/
theorem width_mul_length_symbolsOfBytes (bytes : List UInt8) :
    width * (symbolsOfBytes width bytes).length = 8 * bytes.length + fill width (8 * bytes.length) := by
  rw [← length_flatMap_bits, flatMap_symbolsOfBytes hwidth, length_filled]

/-- Bytes that end with a symbol have their symbols in front of those of the rest. -/
theorem symbolsOfBytes_append (h : width ∣ 8 * bytes.length) (rest : List UInt8) :
    symbolsOfBytes width (bytes ++ rest) = symbolsOfBytes width bytes ++ symbolsOfBytes width rest := by
  rw [symbolsOfBytes, bitsOfBytes_append, groups_append hwidth (by rwa [length_bitsOfBytes]), map_append]
  rfl

/-! ### Regrouping -/

theorem regroup_symbolsOfBytes (hle : width ≤ 8) (bytes : List UInt8) :
    regroup width (symbolsOfBytes width bytes) =
      (bytes, List.replicate (fill width (8 * bytes.length)) false) := by
  have hfill := fill_lt hwidth (8 * bytes.length)
  have hwhole : (filled width bytes).length / 8 * 8 = (bitsOfBytes bytes).length := by
    rw [length_filled, length_bitsOfBytes]; omega
  simp only [regroup, flatMap_symbolsOfBytes hwidth, hwhole]
  rw [filled, take_left, drop_left, bytesOfBits_bitsOfBytes]

/-- Symbols whose last bits are zeros, too few for a symbol, are those of the bytes they are read as. -/
theorem eq_symbolsOfBytes_of_regroup (hvs : ∀ v ∈ vs, v < 2 ^ width)
    {trailing : List Bool} (h : regroup width vs = (bytes, trailing))
    (hzero : trailing.any id = false) (hlength : width * vs.length % 8 < width) :
    vs = symbolsOfBytes width bytes := by
  obtain ⟨hbytes, htrailing⟩ := Prod.mk.inj h
  have hstream : (vs.flatMap (bits width)).length = width * vs.length := length_flatMap_bits vs
  have hdvd : 8 ∣ ((vs.flatMap (bits width)).take
      ((vs.flatMap (bits width)).length / 8 * 8)).length := by
    rw [length_take_of_le (Nat.div_mul_le_self _ _)]
    exact Nat.dvd_mul_left _ _
  have hwhole := bitsOfBytes_bytesOfBits hdvd
  rw [hbytes] at hwhole
  have hsplit : vs.flatMap (bits width) = bitsOfBytes bytes ++ trailing := by
    rw [hwhole, ← htrailing, take_append_drop]
  have hcount : trailing.length < width := by
    rw [← htrailing, length_drop, hstream]; omega
  have hzeros : trailing = List.replicate (fill width (8 * bytes.length)) false := by
    have htotal := congrArg List.length hsplit
    rw [hstream, length_append, length_bitsOfBytes] at htotal
    rw [← eq_fill hwidth hcount ⟨vs.length, htotal.symm⟩]
    refine eq_replicate_iff.mpr ⟨rfl, ?_⟩
    intro b hb
    exact Bool.eq_false_iff.mpr fun htrue => by
      rw [any_eq_true.mpr ⟨b, hb, htrue⟩] at hzero
      cases hzero
  rw [symbolsOfBytes_eq hwidth, filled, ← hzeros, ← hsplit,
    groups_flatMap hwidth fun v _ => length_bits width v, map_map]
  conv_lhs => rw [← map_id vs]
  apply map_congr_left
  intro v hv
  rw [Function.comp_apply, ofBits_bits, Nat.mod_eq_of_lt (hvs v hv), id_eq]

theorem width_mul_length_mod_lt (hle : width ≤ 8) (bytes : List UInt8) :
    width * (symbolsOfBytes width bytes).length % 8 < width := by
  have hlength := width_mul_length_symbolsOfBytes hwidth bytes
  have hfill := fill_lt hwidth (8 * bytes.length)
  omega

/-- Symbols are read as bytes, with nothing but zeros left, just if they are the symbols of these bytes. -/
theorem regroup_eq_iff (hle : width ≤ 8) (hvs : ∀ v ∈ vs, v < 2 ^ width)
    (hlength : width * vs.length % 8 < width) :
    (regroup width vs).1 = bytes ∧ (regroup width vs).2.any id = false ↔ vs = symbolsOfBytes width bytes := by
  constructor
  · rintro ⟨hbytes, hzero⟩
    exact eq_symbolsOfBytes_of_regroup hwidth hvs (Prod.ext hbytes rfl) hzero hlength
  · rintro rfl
    rw [regroup_symbolsOfBytes hwidth hle]
    exact ⟨rfl, by simp⟩

end Symbols

end Teal.Codec
