import Teal.Codec.Bits

/-!
Base 32 with the upper case alphabet `A` to `Z`, `2` to `7`. Text is read either without padding or
as blocks of eight symbols, each padded with `=` on its own. Bits that fill no byte must be zero.
-/

namespace Teal.Codec.Base32

inductive Problem where
  | length
  | symbol
  | trailing
  | padding
deriving DecidableEq, Inhabited

structure Fault where
  problem : Problem
  position : Nat
deriving DecidableEq, Inhabited

def Fault.message (f : Fault) : String :=
  let what := match f.problem with
    | .length => "invalid length"
    | .symbol => "invalid symbol"
    | .trailing => "non-zero trailing bits"
    | .padding => "invalid padding length"
  s!"{what} at {f.position}"

def value? (b : UInt8) : Option Nat :=
  if 65 ≤ b.toNat ∧ b.toNat ≤ 90 then some (b.toNat - 65)
  else if 50 ≤ b.toNat ∧ b.toNat ≤ 55 then some (b.toNat - 50 + 26)
  else none

def symbol (n : Nat) : Char :=
  if n < 26 then Char.ofNat (65 + n) else Char.ofNat (50 + (n - 26))

/-- Values of symbols, the first of which has the index `start` in the text. -/
def values (start : Nat) : List UInt8 → Except Fault (List Nat)
  | [] => .ok []
  | b :: bytes =>
    match value? b with
    | none => .error ⟨.symbol, start⟩
    | some v => (values (start + 1) bytes).map (v :: ·)

/-- Decode symbols whose number is known to be right. -/
def decodeSymbols (start : Nat) (input : List UInt8) : Except Fault (List UInt8) :=
  match values start input with
  | .error f => .error f
  | .ok vs =>
    let (bytes, trailing) := regroup 5 vs
    if trailing.any id then .error ⟨.trailing, start + input.length - 1⟩ else .ok bytes

/-- Decode text without padding. -/
def decodeUnpadded (input : List UInt8) : Except Fault (List UInt8) :=
  if 5 ≤ 5 * input.length % 8 then .error ⟨.length, input.length - 1⟩
  else decodeSymbols 0 input

/-- Decode one padded block of eight bytes that starts at the index `start`. -/
def decodeBlock (start : Nat) (block : List UInt8) : Except Fault (List UInt8) :=
  let symbols := (block.reverse.dropWhile (· == 61)).reverse
  let n := symbols.length
  if n = 2 ∨ n = 4 ∨ n = 5 ∨ n = 7 ∨ n = 8 then decodeSymbols start symbols
  else .error ⟨.padding, start + n⟩

/-- Decode padded blocks, the first of which starts at the index `start`. -/
def decodeBlocks (start : Nat) : List (List UInt8) → Except Fault (List UInt8)
  | [] => .ok []
  | block :: blocks =>
    match decodeBlock start block with
    | .error f => .error f
    | .ok bytes => (decodeBlocks (start + 8) blocks).map (bytes ++ ·)

/-- Decode text made of padded blocks. -/
def decodePadded (input : List UInt8) : Except Fault (List UInt8) :=
  if input.length % 8 ≠ 0 then .error ⟨.length, input.length / 8 * 8⟩
  else decodeBlocks 0 (groups 8 input)

def encodeUnpadded (bytes : List UInt8) : List Char := (symbolsOfBytes 5 bytes).map symbol

end Teal.Codec.Base32
