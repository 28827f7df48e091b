import Teal.Codec.Primitives

/-!
Account addresses: the 32 bytes of a public key and the last 4 bytes of their hash, in base 32
without padding. That makes 58 characters.
-/

namespace Teal.Codec.Address

/-- Length of an address in bytes of text. -/
def textLength : Nat := 58

def keyLength : Nat := 32

def checksumLength : Nat := 4

inductive Fault where
  | length (found : Nat)
  | encoding (fault : Base32.Fault)
  | size (found : Nat)
  | checksum
deriving DecidableEq, Inhabited

def Fault.message : Fault → String
  | .length found => s!"address must be {textLength} characters, got {found}"
  | .encoding fault => "invalid address encoding: " ++ fault.message
  | .size found => s!"address decodes to {found} bytes, expected 36"
  | .checksum => "invalid address checksum"

/-- The last bytes of the hash of a key. -/
def checksum (key : List UInt8) (c : Primitives := .standard) : List UInt8 :=
  (c.digest key).drop ((c.digest key).length - checksumLength)

def encode (key : List UInt8) (c : Primitives := .standard) : List Char := c.encode (key ++ checksum key c)

/-- The public key of an address. -/
def decode (text : List UInt8) (c : Primitives := .standard) : Except Fault (List UInt8) :=
  if text.length ≠ textLength then .error (.length text.length)
  else
    match c.unpadded text with
    | .error f => .error (.encoding f)
    | .ok raw =>
      let key := raw.take keyLength
      if raw.length ≠ keyLength + checksumLength then .error (.size raw.length)
      else if raw.drop keyLength = checksum key c then .ok key
      else .error .checksum

end Teal.Codec.Address
