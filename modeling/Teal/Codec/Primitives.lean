import Teal.Codec.Base32
import Teal.Codec.Base64
import Teal.Codec.Sha512

/-!
The codecs and the hash function that literals rest on. What reads literals takes them as a parameter, and
nothing is known of them but their laws; `standard` are the ones in use.
-/

namespace Teal.Codec

structure Primitives where
  base64 : List UInt8 → Except Base64.Fault (List UInt8)
  /-- Read base 32 with padding. -/
  padded : List UInt8 → Except Base32.Fault (List UInt8)
  /-- Read base 32 without padding. -/
  unpadded : List UInt8 → Except Base32.Fault (List UInt8)
  /-- Write base 32 without padding. -/
  encode : List UInt8 → List Char
  digest : List UInt8 → List UInt8

def Primitives.standard : Primitives :=
  ⟨Base64.decode, Base32.decodePadded, Base32.decodeUnpadded, Base32.encodeUnpadded, Sha512.digest256⟩

/-- Read base 32; it counts as padded when it holds a `=` anywhere. -/
def Primitives.base32 (c : Primitives) (input : List UInt8) : Except Base32.Fault (List UInt8) :=
  if input.contains 61 then c.padded input else c.unpadded input

end Teal.Codec
