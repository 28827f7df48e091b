/-!
Numbers as lists of bits, most significant first, and bit streams cut into groups. The text codecs
regroup the bits of a byte string, so they are stated over these lists.
-/

namespace Teal.Codec

/-- The `width` low bits of a number. -/
def bits : (width : Nat) → Nat → List Bool
  | 0, _ => []
  | width + 1, n => n.testBit width :: bits width n

def ofBits (bs : List Bool) : Nat := bs.foldl (fun acc b => 2 * acc + b.toNat) 0

/-- Cut a list into groups of `size` elements; the last one may be shorter. -/
def groups {α : Type} (size : Nat) : List α → List (List α)
  | [] => []
  | x :: xs => (x :: xs.take (size - 1)) :: groups size (xs.drop (size - 1))
termination_by xs => xs.length
decreasing_by simp only [List.length_drop, List.length_cons]; omega

def bitsOfBytes (bytes : List UInt8) : List Bool := bytes.flatMap fun b => bits 8 b.toNat

/-- The bytes of a bit stream whose length is a multiple of eight. -/
def bytesOfBits (bs : List Bool) : List UInt8 := (groups 8 bs).map fun g => UInt8.ofNat (ofBits g)

/-- Regroup symbols of `width` bits into bytes. The result also holds the bits that fill no byte. -/
def regroup (width : Nat) (symbols : List Nat) : List UInt8 × List Bool :=
  let stream := symbols.flatMap (bits width)
  let whole := stream.length / 8 * 8
  (bytesOfBits (stream.take whole), stream.drop whole)

/-- Regroup bytes into symbols of `width` bits, the last one filled up with zero bits. -/
def symbolsOfBytes (width : Nat) (bytes : List UInt8) : List Nat :=
  (groups width (bitsOfBytes bytes)).map fun g =>
    ofBits (g ++ List.replicate (width - g.length) false)

end Teal.Codec
