import Teal.Ty

/-!
Operators of the language. The text of an operator is also the opcode that executes it. Binary
operators fall into five tiers; each associates to the left and binds tighter than the tier before.
-/

namespace Teal

inductive OperandRule where
  | integer
  /-- Operands are of one type, whichever it is. -/
  | same
deriving DecidableEq, Inhabited

/-- Precedence tiers, from the loosest to the tightest. -/
inductive Tier where
  | disjunction
  | conjunction
  | comparison
  | additive
  | multiplicative
deriving DecidableEq, Inhabited

namespace Tier

/-- All tiers, from the loosest to the tightest. -/
def all : List Tier := [.disjunction, .conjunction, .comparison, .additive, .multiplicative]

def rank : Tier → Nat
  | .disjunction => 0
  | .conjunction => 1
  | .comparison => 2
  | .additive => 3
  | .multiplicative => 4

end Tier

inductive BinOp where
  | or
  | and
  | eq
  | ne
  | lt
  | le
  | gt
  | ge
  | add
  | sub
  | bitOr
  | bitXor
  | mul
  | div
  | mod
  | bitAnd
deriving DecidableEq, Inhabited

namespace BinOp

def text : BinOp → String
  | .or => "||"
  | .and => "&&"
  | .eq => "=="
  | .ne => "!="
  | .lt => "<"
  | .le => "<="
  | .gt => ">"
  | .ge => ">="
  | .add => "+"
  | .sub => "-"
  | .bitOr => "|"
  | .bitXor => "^"
  | .mul => "*"
  | .div => "/"
  | .mod => "%"
  | .bitAnd => "&"

def tier : BinOp → Tier
  | .or => .disjunction
  | .and => .conjunction
  | .eq | .ne | .lt | .le | .gt | .ge => .comparison
  | .add | .sub | .bitOr | .bitXor => .additive
  | .mul | .div | .mod | .bitAnd => .multiplicative

def all : List BinOp :=
  [.or, .and, .eq, .ne, .lt, .le, .gt, .ge, .add, .sub, .bitOr, .bitXor, .mul, .div, .mod, .bitAnd]

def ofText? (text : String) : Option BinOp := all.find? (·.text == text)

def operandRule : BinOp → OperandRule
  | .eq | .ne => .same
  | _ => .integer

def resultTy (_ : BinOp) : Ty := .integer

def isComparison (op : BinOp) : Bool := op.tier == .comparison

/-- How tightly an operator holds its left and its right operand; higher holds tighter. -/
def bindingPower (op : BinOp) : Nat × Nat := (2 * op.tier.rank + 1, 2 * op.tier.rank + 2)

end BinOp

inductive UnOp where
  | not
  | bitNot
deriving DecidableEq, Inhabited

namespace UnOp

def text : UnOp → String
  | .not => "!"
  | .bitNot => "~"

def all : List UnOp := [.not, .bitNot]

def ofText? (text : String) : Option UnOp := all.find? (·.text == text)

def operandRule (_ : UnOp) : OperandRule := .integer

def resultTy (_ : UnOp) : Ty := .integer

end UnOp

end Teal
