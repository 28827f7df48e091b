import Teal.Codec.Primitives
import Teal.Proofs.Codec.Base32
import Teal.Proofs.Codec.Base64

/-! The laws of the primitives. Literals are read with any codecs and any hash function that have them, and
the standard ones do. -/

namespace Teal.Codec

open List

structure Primitives.Lawful (c : Primitives) : Prop where
  /-- A text is read in base 64 just if it is what is written for the bytes. -/
  base64 {text : List Char} {bytes : List UInt8} :
    c.base64 (Text.utf8 text) = .ok bytes ↔ text = Base64.scheme.encode bytes
  padded (bytes : List UInt8) : c.padded (Text.utf8 (Base32.scheme.encode bytes)) = .ok bytes
  unpadded {text : List Char} {bytes : List UInt8} : c.unpadded (Text.utf8 text) = .ok bytes ↔ text = c.encode bytes
  encode (bytes : List UInt8) : c.encode bytes = Base32.encodeUnpadded bytes
  /-- Of the hash function only the size is known. -/
  digest (message : List UInt8) : (c.digest message).length = 32

theorem Sha512.length_bigEndian (count n : Nat) : (bigEndian count n).length = count := by
  induction count with
  | zero => rfl
  | succ count ih => exact congrArg (· + 1) ih

theorem Sha512.length_digest256 (message : List UInt8) : (digest256 message).length = 32 := by
  simp only [digest256, length_take]
  rw [length_flatMap_of_length fun w _ => length_bigEndian 8 w.toNat]
  rfl

namespace Primitives

theorem Lawful.standard : Primitives.standard.Lawful where
  base64 := Base64.decode_eq_ok_iff
  padded := Base32.decodePadded_encode
  unpadded := Base32.decodeUnpadded_eq_ok_iff.trans ⟨fun h => Text.utf8_injective h, congrArg Text.utf8⟩
  encode _ := rfl
  digest := Sha512.length_digest256

variable {c : Primitives} {text : List Char} {bytes : List UInt8}

/-- A text without `=` is accepted just if it is what is written for the bytes it is read as. -/
theorem Lawful.base32_eq_ok_iff (hc : c.Lawful) (hpad : '=' ∉ text) :
    c.base32 (Text.utf8 text) = .ok bytes ↔ text = Base32.encodeUnpadded bytes := by
  rw [base32, if_neg, hc.unpadded, hc.encode]
  rwa [contains_iff_mem, Base32.mem_utf8_iff]

/-- Bytes are read back from their padded text, also where it needs no padding. -/
theorem Lawful.base32_encode (hc : c.Lawful) (bytes : List UInt8) :
    c.base32 (Text.utf8 (Base32.scheme.encode bytes)) = .ok bytes := by
  by_cases hpad : '=' ∈ Base32.scheme.encode bytes
  · rw [base32, if_pos (contains_iff_mem.mpr ((Base32.mem_utf8_iff _).mpr hpad)), hc.padded]
  · rw [hc.base32_eq_ok_iff hpad, ← Base32.filter_encode, Base32.filter_of_notMem hpad]

end Primitives

end Teal.Codec
