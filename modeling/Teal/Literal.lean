import Teal.Codec.Address
import Teal.Text.Hex
import Teal.Text.Utf8

/-!
The bytes and numbers that literals denote. A string literal is plain text with escapes, or base 64,
base 32 or an account address behind the prefix that says so. An integer literal is an unsigned
number of 64 bits.
-/

namespace Teal

namespace Literal

inductive Encoding where
  | plain
  | base64
  | base32
  | address
deriving DecidableEq, Inhabited

/-- The encoding that a prefix in front of the opening quote selects. -/
def Encoding.ofPrefix? (name : String) : Option Encoding :=
  if name = "b64" then some .base64
  else if name = "b32" then some .base32
  else if name = "addr" then some .address
  else none

inductive Fault where
  | shortHex
  | badHex (digits : List Char)
  | unknownEscape (c : Char)
  | danglingEscape
  | base64 (fault : Codec.Base64.Fault)
  | base32 (fault : Codec.Base32.Fault)
  | address (fault : Codec.Address.Fault)
deriving DecidableEq, Inhabited

def Fault.message : Fault → String
  | .shortHex => "'\\x' escape needs two hex digits"
  | .badHex digits => "invalid hex escape '\\x" ++ String.ofList digits ++ "'"
  | .unknownEscape c => "unknown escape sequence '\\" ++ String.singleton c ++ "'"
  | .danglingEscape => "dangling '\\' at end of string"
  | .base64 fault => "invalid base64 literal: " ++ fault.message
  | .base32 fault => "invalid base32 literal: " ++ fault.message
  | .address fault => fault.message

/-- The byte behind an escape `\x`. The two places hold hexadecimal digits, or a plus sign and one
digit; they are told apart from too few places by their size in UTF-8. -/
def hexEscape (digits : List Char) : Except Fault UInt8 :=
  if (Text.utf8 digits).length ≠ 2 then .error .shortHex
  else
    let value := match digits with
      | ['+', lo] => Text.digitValue? 16 lo
      | [hi, lo] => do
        let h ← Text.digitValue? 16 hi
        let l ← Text.digitValue? 16 lo
        return 16 * h + l
      | _ => none
    match value with
    | some v => .ok (UInt8.ofNat v)
    | none => .error (.badHex digits)

/-- The byte of an escape of one letter. -/
def simpleEscape? (c : Char) : Option UInt8 :=
  match c with
  | 'n' => some 10
  | 't' => some 9
  | 'r' => some 13
  | '0' => some 0
  | '\\' => some 92
  | '"' => some 34
  | _ => none

def unescape : List Char → Except Fault (List UInt8)
  | [] => .ok []
  | ['\\'] => .error .danglingEscape
  | ['\\', 'x'] => .error .shortHex
  | ['\\', 'x', hi] => (hexEscape [hi]).map ([·])
  | '\\' :: 'x' :: hi :: lo :: rest =>
    match hexEscape [hi, lo] with
    | .error f => .error f
    | .ok b => (unescape rest).map (b :: ·)
  | '\\' :: c :: rest =>
    match simpleEscape? c with
    | none => .error (.unknownEscape c)
    | some b => (unescape rest).map (b :: ·)
  | c :: rest => (unescape rest).map (String.utf8EncodeChar c ++ ·)

def Encoding.decode (encoding : Encoding) (body : List Char) (c : Codec.Primitives := .standard) :
    Except Fault (List UInt8) :=
  match encoding with
  | .plain => unescape body
  | .base64 => (c.base64 (Text.utf8 body)).mapError .base64
  | .base32 => (c.base32 (Text.utf8 body)).mapError .base32
  | .address => (Codec.Address.decode (Text.utf8 body) c).mapError .address

end Literal

namespace Integer

inductive Fault where
  | tooLarge
  | invalid
deriving DecidableEq, Inhabited

/-- Continue a number by digits. A digit that does not exist in the base is noticed before the
overflow it would cause, but not after an earlier one. -/
def extend (base : Nat) : (acc : Nat) → List Char → Except Fault Nat
  | acc, [] => .ok acc
  | acc, c :: cs =>
    match Text.digitValue? base c with
    | none => .error .invalid
    | some d =>
      if base * acc + d < 2 ^ 64 then extend base (base * acc + d) cs else .error .tooLarge

/-- The integer that digits write; there must be at least one. -/
def ofDigits (base : Nat) (digits : List Char) : Except Fault UInt64 :=
  if digits.isEmpty then .error .invalid
  else (extend base 0 digits).map UInt64.ofNat

end Integer

end Teal
