import Teal.Codec.Address
import Teal.Proofs.Codec.Primitives

/-! Addresses and public keys correspond one to one: a text is accepted just if it is the address of the key
that it is read as. Of the hash nothing is used but its length: four bytes behind the 32 of a key make 36,
and no other number of bytes has a text of 58 symbols. -/

namespace Teal.Codec.Address

open List

variable {c : Primitives} (hc : c.Lawful) {text : List Char} {key : List UInt8}

include hc

theorem length_checksum (key : List UInt8) : (checksum key c).length = checksumLength := by
  rw [checksum, length_drop, hc.digest]
  rfl

theorem length_encode (h : key.length = keyLength) : (encode key c).length = textLength := by
  rw [encode, hc.encode, Base32.length_encodeUnpadded, length_append, length_checksum hc, h]
  rfl

section Read

variable {raw : List UInt8} (hlength : (Text.utf8 text).length = textLength)
  (hraw : c.unpadded (Text.utf8 text) = .ok raw)

include hlength hraw

/-- Of all numbers of bytes, only 36 have a text of the length of an address. -/
theorem length_of_unpadded : raw.length = keyLength + checksumLength := by
  rw [hc.unpadded.mp hraw, hc.encode, Base32.length_utf8_encodeUnpadded, Base32.length_encodeUnpadded] at hlength
  unfold textLength at hlength
  unfold keyLength checksumLength
  omega

/-- So behind the check of the length the check of that number never fails. -/
theorem decode_eq : decode (Text.utf8 text) c = if raw.drop keyLength = checksum (raw.take keyLength) c
    then .ok (raw.take keyLength) else .error .checksum := by
  rw [decode, if_neg (not_not.mpr hlength), hraw]
  exact if_neg (not_not.mpr (length_of_unpadded hc hlength hraw))

end Read

theorem decode_encode (h : key.length = keyLength) : decode (Text.utf8 (encode key c)) c = .ok key := by
  have hlength : (Text.utf8 (encode key c)).length = textLength := by
    rw [← length_encode hc h, encode, hc.encode, Base32.length_utf8_encodeUnpadded]
  rw [decode_eq hc hlength (hc.unpadded.mpr rfl), take_left' h, drop_left' h, if_pos rfl]

theorem eq_encode_of_decode (h : decode (Text.utf8 text) c = .ok key) :
    key.length = keyLength ∧ text = encode key c := by
  have hlength : (Text.utf8 text).length = textLength := by
    by_contra hlength
    rw [decode, if_pos hlength] at h
    cases h
  cases hraw : c.unpadded (Text.utf8 text) with
  | error f =>
    rw [decode, if_neg (not_not.mpr hlength), hraw] at h
    cases h
  | ok raw =>
    have hbytes := length_of_unpadded hc hlength hraw
    rw [decode_eq hc hlength hraw] at h
    split_ifs at h with hsum
    obtain rfl := Except.ok.inj h
    refine ⟨length_take_of_le (by rw [hbytes]; decide), ?_⟩
    rw [encode, ← hsum, take_append_drop]
    exact hc.unpadded.mp hraw

omit hc

/-- A text is read as a key just if the key has 32 bytes and the text is its address. So every key has an
address, of 58 characters, that is read back, and there is no second way to write it. -/
theorem decode_iff_encode (text : List Char) (key : List UInt8) :
    (decode (Text.utf8 text) = .ok key ↔ key.length = keyLength ∧ text = encode key) ∧
      (key.length = keyLength → (encode key).length = textLength) := by
  refine ⟨⟨eq_encode_of_decode .standard, ?_⟩, length_encode .standard⟩
  rintro ⟨hkey, rfl⟩
  exact decode_encode .standard hkey

end Teal.Codec.Address
