import Teal.Field

/-!
Operations that are called by name: what they take, what they leave, and since which version.

A call may be folded. Indices known beforehand that fit a byte become immediates of the opcode and are
not pushed; otherwise an opcode is used that takes them from the stack. The name of an asset field is
always an immediate.
-/

namespace Teal

def maxImmediate : Nat := 255

namespace Builtin

inductive ArgShape where
  | int
  | bytes
  /-- An integer or a byte string. -/
  | any
  /-- The bare name of a field, which is not evaluated. -/
  | field (table : Field.Table)
deriving DecidableEq, Inhabited

namespace ArgShape

def accepts : ArgShape → Ty → Bool
  | .int, ty => ty == .integer
  | .bytes, ty => ty == .bytes
  | .any, ty => ty.isResolved
  | .field _, _ => true

def expectation : ArgShape → String
  | .int => "int"
  | .bytes => "byte[]"
  | .any => "int or byte[]"
  | .field _ => "a field name"

def isField : ArgShape → Bool
  | .field _ => true
  | _ => false

end ArgShape

inductive Folding where
  | substring
  | extract
  | assetField
deriving DecidableEq, Inhabited

end Builtin

structure Builtin where
  name : String
  /-- Whether programs may call it; otherwise it only replaces other operations. -/
  callable : Bool
  args : List Builtin.ArgShape
  results : List Ty
  /-- First version that knows the operation. -/
  minVersion : Nat
  folding : Option Builtin.Folding
deriving DecidableEq, Inhabited

namespace Builtin

def plain (name : String) (args : List ArgShape) (results : List Ty) (minVersion : Nat) : Builtin :=
  ⟨name, true, args, results, minVersion, none⟩

def folded (name : String) (args : List ArgShape) (results : List Ty) (minVersion : Nat)
    (folding : Folding) : Builtin :=
  ⟨name, true, args, results, minVersion, some folding⟩

def internal (name : String) (args : List ArgShape) (results : List Ty) (minVersion : Nat) : Builtin :=
  ⟨name, false, args, results, minVersion, none⟩

def catalog : List Builtin :=
  [ .plain "sha256" [.bytes] [.bytes] 1,
    .plain "keccak256" [.bytes] [.bytes] 1,
    .plain "sha512_256" [.bytes] [.bytes] 1,
    .plain "ed25519verify" [.bytes, .bytes, .bytes] [.integer] 1,
    .plain "len" [.bytes] [.integer] 1,
    .plain "itob" [.int] [.bytes] 1,
    .plain "btoi" [.bytes] [.integer] 1,
    .plain "concat" [.bytes, .bytes] [.bytes] 2,
    .folded "substring" [.bytes, .int, .int] [.bytes] 2 .substring,
    .folded "extract" [.bytes, .int, .int] [.bytes] 5 .extract,
    .plain "extract_uint16" [.bytes, .int] [.integer] 5,
    .plain "extract_uint32" [.bytes, .int] [.integer] 5,
    .plain "extract_uint64" [.bytes, .int] [.integer] 5,
    .plain "getbyte" [.bytes, .int] [.integer] 3,
    .plain "setbyte" [.bytes, .int, .int] [.bytes] 3,
    .plain "getbit" [.any, .int] [.integer] 3,
    .plain "bzero" [.int] [.bytes] 4,
    .plain "bitlen" [.any] [.integer] 4,
    .plain "addw" [.int, .int] [.integer, .integer] 2,
    .plain "mulw" [.int, .int] [.integer, .integer] 1,
    .plain "expw" [.int, .int] [.integer, .integer] 4,
    .plain "divmodw" [.int, .int, .int, .int] [.integer, .integer, .integer, .integer] 4,
    .plain "exp" [.int, .int] [.integer] 4,
    .plain "sqrt" [.int] [.integer] 4,
    .plain "shl" [.int, .int] [.integer] 4,
    .plain "shr" [.int, .int] [.integer] 4,
    .plain "balance" [.any] [.integer] 2,
    .plain "min_balance" [.any] [.integer] 3,
    .plain "app_opted_in" [.any, .int] [.integer] 2,
    .plain "app_local_get" [.any, .bytes] [.unknown] 2,
    .plain "app_local_put" [.any, .bytes, .any] [] 2,
    .plain "app_local_del" [.any, .bytes] [] 2,
    .plain "app_global_get" [.bytes] [.unknown] 2,
    .plain "app_global_put" [.bytes, .any] [] 2,
    .plain "app_global_del" [.bytes] [] 2,
    .folded "asset_holding_get" [.field .assetHolding, .any, .int] [.unknown, .integer] 2 .assetField,
    .folded "asset_params_get" [.field .assetParams, .int] [.unknown, .integer] 2 .assetField,
    .plain "log" [.bytes] [] 5,
    .plain "assert" [.int] [] 3,
    .internal "substring3" [.bytes, .int, .int] [.bytes] 2,
    .internal "extract3" [.bytes, .int, .int] [.bytes] 5,
    .internal "itxn_begin" [] [] 5,
    .internal "itxn_field" [.any] [] 5,
    .internal "itxn_submit" [] [] 5 ]

def find? (name : String) : Option Builtin := catalog.find? (·.name == name)

/-- What is known of an argument before it is evaluated. -/
inductive ConstArg where
  | int (n : UInt64)
  | name (name : String)
  | unknown
deriving DecidableEq, Inhabited

/-- The number of a known argument that fits an immediate. -/
def ConstArg.immediate? : ConstArg → Option UInt8
  | .int n => if n.toNat ≤ maxImmediate then some n.toUInt8 else none
  | _ => none

inductive Immediate where
  | number (n : UInt8)
  | field (name : String)
deriving DecidableEq, Inhabited

def Immediate.text : Immediate → String
  | .number n => toString n.toNat
  | .field name => name

structure Call where
  name : String
  op : String
  immediates : List Immediate
  /-- For each argument on the stack its place in the source, from 1 on, and its shape. -/
  params : List (Nat × ArgShape)
  results : List Ty
deriving DecidableEq, Inhabited

inductive Fault where
  | reversed (start stop : UInt64)
  | fieldName (builtin : String)
  | unknownField (field builtin : String)
  | newField (field : String) (needed target : Nat)
deriving DecidableEq, Inhabited

def Fault.message : Fault → String
  | .reversed start stop => s!"substring start {start.toNat} is greater than end {stop.toNat}"
  | .fieldName builtin => s!"argument 1 of '{builtin}' must be a field name"
  | .unknownField field builtin => s!"unknown field '{field}' for '{builtin}'"
  | .newField field needed target =>
    s!"field '{field}' requires version {needed} (target is {target})"

/-- The arguments that are pushed, with their places. -/
def stackParams (b : Builtin) : List (Nat × ArgShape) :=
  (b.args.mapIdx fun i shape => (i + 1, shape)).filter (!·.2.isField)

def unfolded (b : Builtin) : Call := ⟨b.name, b.name, [], b.stackParams, b.results⟩

/-- What is known of an argument by its place, from 0 on. -/
def constAt (consts : List ConstArg) (i : Nat) : ConstArg := consts[i]?.getD .unknown

/-- Both indices as immediates, if they fit. -/
def indexPair? (consts : List ConstArg) : Option (UInt8 × UInt8) := do
  let a ← (constAt consts 1).immediate?
  let b ← (constAt consts 2).immediate?
  return (a, b)

/-- Fold two indices into immediates, or fall back on an opcode that takes them from the stack. -/
def foldIndices {α : Type} (call : Call) (args : List α) (fallback : String) :
    Option (UInt8 × UInt8) → Call × List α
  | some (a, b) =>
    ({ call with immediates := [.number a, .number b], params := call.params.take 1 }, args.take 1)
  | none => ({ call with op := fallback }, args)

/-- Fold the name of an asset field, which also decides the type of the first result. -/
def foldField (call : Call) (table : Field.Table) (version : Nat) : ConstArg → Except Fault Call
  | .name name =>
    match table.find? name with
    | none => throw (.unknownField name call.op)
    | some field =>
      if version < field.minVersion then throw (.newField name field.minVersion version)
      else return { call with immediates := [.field field.name], results := [field.ty, .integer] }
  | _ => throw (.fieldName call.op)

/-- Make a call from the arguments that are pushed and what is known of all of them. A length of zero
is not folded into `extract`, where it would mean up to the end. -/
def instantiate {α : Type} (b : Builtin) (args : List α) (consts : List ConstArg) (version : Nat) :
    Except Fault (Call × List α) :=
  match b.folding with
  | none => return (b.unfolded, args)
  | some .substring =>
    match constAt consts 1, constAt consts 2 with
    | .int start, .int stop =>
      if stop < start then throw (.reversed start stop)
      else return foldIndices b.unfolded args "substring3" (indexPair? consts)
    | _, _ => return foldIndices b.unfolded args "substring3" (indexPair? consts)
  | some .extract =>
    if constAt consts 2 = .int 0 then return foldIndices b.unfolded args "extract3" none
    else return foldIndices b.unfolded args "extract3" (indexPair? consts)
  | some .assetField =>
    match b.args with
    | .field table :: _ => return (← foldField b.unfolded table version (constAt consts 0), args)
    | _ => throw (.fieldName b.name)

end Builtin

end Teal
