import Teal.Builtin
import Teal.Operator
import Teal.Pool
import Teal.Text.Hex

/-!
The assembly of the stack machine: one instruction, label or directive a line.

Labels inside of bodies carry a number and the *path* of the calls that were replaced by bodies around
them, from the outermost to the innermost, so that a body that is expanded twice has labels of its own
each time.
-/

namespace Teal.Assembly

/-- What a label inside of a body marks. -/
inductive Mark where
  | ifFalse (n : Nat)
  | ifEnd (n : Nat)
  | condFalse (n : Nat)
  | condEnd (n : Nat)
  | loopStart (n : Nat)
  | loopEnd (n : Nat)
  /-- The end of the body of a function that stands in place of a call. -/
  | inlineEnd (name : String)
deriving DecidableEq, Inhabited

def Mark.text : Mark → String
  | .ifFalse n => s!"if_false_{n}"
  | .ifEnd n => s!"if_end_{n}"
  | .condFalse n => s!"if_expr_false_{n}"
  | .condEnd n => s!"if_expr_end_{n}"
  | .loopStart n => s!"loop_start_{n}"
  | .loopEnd n => s!"loop_end_{n}"
  | .inlineEnd name => s!"inline_{name}_end"

inductive Label where
  | inBody (mark : Mark) (path : List Nat)
  /-- The start of a subroutine. -/
  | subroutine (name : String)
  | subroutineEnd (name : String)
  | programEnd
deriving DecidableEq, Inhabited

def pathText (path : List Nat) : String := String.join (path.map fun site => s!"_{site}")

def Label.text : Label → String
  | .inBody mark path => mark.text ++ pathText path
  | .subroutine name => s!"fun_{name}"
  | .subroutineEnd name => s!"end_{name}"
  | .programEnd => "end_main"

/-- Ways to read a field. An index is an operand of the instruction, or it is taken from the stack. -/
inductive FieldOp where
  | txn
  | txna (index : UInt8)
  | txnas
  | gtxn (txn : UInt8)
  | gtxna (txn index : UInt8)
  | gtxnas (txn : UInt8)
  | gtxns
  | gtxnsa (index : UInt8)
  | gtxnsas
  | global
  | itxn
  | itxna (index : UInt8)
deriving DecidableEq, Inhabited

def FieldOp.text (field : String) : FieldOp → String
  | .txn => s!"txn {field}"
  | .txna j => s!"txna {field} {j.toNat}"
  | .txnas => s!"txnas {field}"
  | .gtxn i => s!"gtxn {i.toNat} {field}"
  | .gtxna i j => s!"gtxna {i.toNat} {field} {j.toNat}"
  | .gtxnas i => s!"gtxnas {i.toNat} {field}"
  | .gtxns => s!"gtxns {field}"
  | .gtxnsa j => s!"gtxnsa {field} {j.toNat}"
  | .gtxnsas => s!"gtxnsas {field}"
  | .global => s!"global {field}"
  | .itxn => s!"itxn {field}"
  | .itxna j => s!"itxna {field} {j.toNat}"

inductive Line where
  | version (n : Nat)
  | intBlock (values : List UInt64)
  | byteBlock (values : List (List UInt8))
  | label (label : Label)
  | literal (ref : Pool.Ref)
  | load (slot : Nat)
  | store (slot : Nat)
  | unary (op : UnOp)
  | binary (op : BinOp)
  | builtin (op : String) (immediates : List Builtin.Immediate)
  | field (op : FieldOp) (field : Field)
  | arg (index : UInt8)
  /-- Push the argument whose index is on the stack. -/
  | args
  | pop
  | branch (target : Label)
  /-- Branch if zero is on the stack. -/
  | branchZero (target : Label)
  | call (target : Label)
  | returnCall
  | finish
  | err
  | innerBegin
  | innerField (field : Field)
  | innerSubmit
deriving DecidableEq, Inhabited

def Line.text : Line → String
  | .version n => s!"#pragma version {n}"
  | .intBlock values => "intcblock " ++ String.intercalate " " (values.map fun v => toString v.toNat)
  | .byteBlock values => "bytecblock " ++ String.intercalate " " (values.map ("0x" ++ Text.hex ·))
  | .label l => l.text ++ ":"
  | .literal ref => ref.loadText
  | .load slot => s!"load {slot}"
  | .store slot => s!"store {slot}"
  | .unary op => op.text
  | .binary op => op.text
  | .builtin op immediates => String.intercalate " " (op :: immediates.map (·.text))
  | .field op f => op.text f.name
  | .arg n => if n < 4 then s!"arg_{n.toNat}" else s!"arg {n.toNat}"
  | .args => "args"
  | .pop => "pop"
  | .branch l => "b " ++ l.text
  | .branchZero l => "bz " ++ l.text
  | .call l => "callsub " ++ l.text
  | .returnCall => "retsub"
  | .finish => "return"
  | .err => "err"
  | .innerBegin => "itxn_begin"
  | .innerField f => s!"itxn_field {f.name}"
  | .innerSubmit => "itxn_submit"

def poolLines (pool : Pool) : List Line :=
  (if pool.ints.isEmpty then [] else [.intBlock pool.ints]) ++
    if pool.bytes.isEmpty then [] else [.byteBlock pool.bytes]

end Teal.Assembly

namespace Teal

def assemblyText (lines : List Assembly.Line) : String :=
  String.join (lines.map fun l => l.text ++ "\n")

end Teal
