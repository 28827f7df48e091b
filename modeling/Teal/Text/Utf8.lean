/-!
Reading bytes as UTF-8. Bytes that are no text are cut at the longest start of a well-formed
character, so each broken character is found once.
-/

namespace Teal.Text

def utf8 (cs : List Char) : List UInt8 := cs.flatMap String.utf8EncodeChar

namespace Utf8

/-- Ranges that the second, third and fourth byte of a character must lie in, by its first byte.
No range follows an ASCII byte, and a byte that opens no character has no entry. -/
def continuation? (first : UInt8) : Option (List (UInt8 × UInt8)) :=
  let tail : UInt8 × UInt8 := (0x80, 0xBF)
  if first < 0x80 then some []
  else if first < 0xC2 then none
  else if first < 0xE0 then some [tail]
  else if first = 0xE0 then some [(0xA0, 0xBF), tail]
  else if first = 0xED then some [(0x80, 0x9F), tail]
  else if first < 0xF0 then some [tail, tail]
  else if first = 0xF0 then some [(0x90, 0xBF), tail, tail]
  else if first < 0xF4 then some [tail, tail, tail]
  else if first = 0xF4 then some [(0x80, 0x8F), tail, tail]
  else none

/-- Number of bytes at the front that satisfy the ranges one by one. -/
def matching : List (UInt8 × UInt8) → List UInt8 → Nat
  | (lo, hi) :: ranges, b :: bytes =>
    if lo ≤ b ∧ b ≤ hi then matching ranges bytes + 1 else 0
  | _, _ => 0

/-- The code point written by a first byte and the bytes that continue it. -/
def codePoint (first : UInt8) (more : List UInt8) : Nat :=
  let lead := match more.length with
    | 0 => first.toNat
    | 1 => first.toNat % 32
    | 2 => first.toNat % 16
    | _ => first.toNat % 8
  more.foldl (fun acc b => 64 * acc + b.toNat % 64) lead

/-- Characters of a byte string, with `none` for each broken one. -/
def characters : List UInt8 → List (Option Char)
  | [] => []
  | first :: bytes =>
    match continuation? first with
    | none => none :: characters bytes
    | some ranges =>
      let n := matching ranges bytes
      let c := if n = ranges.length then some (Char.ofNat (codePoint first (bytes.take n))) else none
      c :: characters (bytes.drop n)
termination_by bytes => bytes.length
decreasing_by all_goals simp only [List.length_drop, List.length_cons]; omega

end Utf8

def ofUtf8? (bytes : List UInt8) : Option (List Char) := (Utf8.characters bytes).mapM id

/-- The text that bytes write, with U+FFFD for each broken character. -/
def ofUtf8Lossy (bytes : List UInt8) : List Char :=
  (Utf8.characters bytes).map (·.getD (Char.ofNat 0xFFFD))

end Teal.Text
