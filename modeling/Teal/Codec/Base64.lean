import Teal.Codec.Bits

/-!
Base 64 with the standard alphabet and required padding. Bits that fill no byte must be zero.

Faults are looked for in a fixed order: a stray last byte, the groups of four before the last group,
then the last group from left to right, its number of symbols, its padding, and its unused bits.
-/

namespace Teal.Codec.Base64

inductive Fault where
  | symbol (byte : UInt8) (offset : Nat)
  | length (n : Nat)
  | lastSymbol (byte : UInt8) (offset : Nat)
  | padding
deriving DecidableEq, Inhabited

def Fault.message : Fault → String
  | .symbol byte offset => s!"Invalid symbol {byte.toNat}, offset {offset}."
  | .length n => s!"Invalid input length: {n}"
  | .lastSymbol byte offset => s!"Invalid last symbol {byte.toNat}, offset {offset}."
  | .padding => "Invalid padding"

def pad : UInt8 := 61

def value? (b : UInt8) : Option Nat :=
  let n := b.toNat
  if 65 ≤ n ∧ n ≤ 90 then some (n - 65)
  else if 97 ≤ n ∧ n ≤ 122 then some (n - 97 + 26)
  else if 48 ≤ n ∧ n ≤ 57 then some (n - 48 + 52)
  else if n = 43 then some 62
  else if n = 47 then some 63
  else none

/-- Values of symbols, the first of which has the index `start` in the text. -/
def values (start : Nat) : List UInt8 → Except Fault (List Nat)
  | [] => .ok []
  | b :: bytes =>
    match value? b with
    | none => .error (.symbol b start)
    | some v => (values (start + 1) bytes).map (v :: ·)

/-- Padding that follows the symbols of the last group. `first` is the index of its first byte. -/
def padding (first : Nat) : List UInt8 → Except Fault Nat
  | [] => .ok 0
  | b :: bytes => if b = pad then (padding first bytes).map (· + 1) else .error (.symbol pad first)

/-- Values and amount of padding of the last group. `seen` counts its bytes before the list, and
`start` is the index of the list's first byte in the text. -/
def lastGroup (start seen : Nat) : List UInt8 → Except Fault (List Nat × Nat)
  | [] => .ok ([], 0)
  | b :: bytes =>
    if b = pad then
      if seen < 2 then .error (.symbol pad start)
      else (padding start (b :: bytes)).map ([], ·)
    else
      match value? b with
      | none => .error (.symbol b start)
      | some v => (lastGroup (start + 1) (seen + 1) bytes).map fun (vs, pads) => (v :: vs, pads)

/-- Index at which the last group starts: it holds the final one to four bytes. -/
def lastStart (n : Nat) : Nat := (n - 1) / 4 * 4

def decode (input : List UInt8) : Except Fault (List UInt8) := do
  let n := input.length
  let cut := lastStart n
  match input.getLast? with
  | some b =>
    if n % 4 = 1 ∧ b ≠ pad ∧ value? b = none then throw (.symbol b (n - 1))
  | none => pure ()
  let front ← values 0 (input.take cut)
  let (back, pads) ← lastGroup cut 0 (input.drop cut)
  if n ≠ 0 ∧ back.length < 2 then throw (.length (cut + back.length))
  if (back.length + pads) % 4 ≠ 0 then throw .padding
  let (bytes, trailing) := regroup 6 (front ++ back)
  let last := cut + back.length - 1
  if trailing.any id then throw (.lastSymbol (input.getD last 0) last)
  return bytes

end Teal.Codec.Base64
