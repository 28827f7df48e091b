import Teal.Proofs.Program.Resolved

/-! The stack machine, one line at a time. What the operations compute is left open: an operation is
some function of its line, of the values it takes and of an environment, and it may fail. The machine
itself moves values between the stack, the pool and the slots, and control between labels, which it
finds by their text, and subroutines. The rest of the lines stands for the program counter. -/

namespace Teal.Semantics

open Assembly (Line Label)
open Program (poolValue?)

abbrev Value := Program.Literal

/-- What operations compute. They leave as many values as their line tells. -/
structure Interp (Env : Type) where
  apply : (line : Line) → List Value → Env → Option ({ vs : List Value // vs.length = line.pushes } × Env)

inductive Outcome (Env : Type) where
  | returned (value : Value) (env : Env)
  | failed
deriving DecidableEq

/-- A state of the machine. The top of the stack is its head. -/
structure State (Env : Type) where
  code : List Line
  stack : List Value
  slots : Nat → Value
  /-- Where subroutines go on when they return, the innermost first. -/
  calls : List (List Line)
  pool : Pool
  env : Env

variable {Env : Type}

def seek (text : String) : List Line → Option (List Line)
  | [] => none
  | .label l :: rest => if l.text = text then some rest else seek text rest
  | _ :: rest => seek text rest

def jump (lines : List Line) (l : Label) (s : State Env) : Except (Outcome Env) (State Env) :=
  match seek l.text lines with
  | some code => .ok { s with code := code }
  | none => .error .failed

def push (v : Option Value) (s : State Env) : Except (Outcome Env) (State Env) :=
  match v with
  | some v => .ok { s with stack := v :: s.stack }
  | none => .error .failed

/-- Replace the value of one slot. -/
def update {α : Type} [DecidableEq α] (f : α → Value) (a : α) (v : Value) : α → Value :=
  fun x => if x = a then v else f x

/-- Apply an operation to the topmost values. The first operand is the deepest of them. -/
def operate (I : Interp Env) (line : Line) (s : State Env) : Except (Outcome Env) (State Env) :=
  if line.pops ≤ s.stack.length then
    match I.apply line (s.stack.take line.pops).reverse s.env with
    | some (vs, env) =>
      .ok { s with stack := vs.val.reverse ++ s.stack.drop line.pops, env := env }
    | none => .error .failed
  else
    .error .failed

def move (lines : List Line) (line : Line) (s : State Env) : Except (Outcome Env) (State Env) :=
  match line, s.stack with
  | .version _, _ | .label _, _ => .ok s
  | .intBlock values, _ => .ok { s with pool := { s.pool with ints := values } }
  | .byteBlock values, _ => .ok { s with pool := { s.pool with bytes := values } }
  | .literal ref, _ => push (poolValue? s.pool ref) s
  | .load slot, stack =>
    if slot < Scopes.maxSlots then .ok { s with stack := s.slots slot :: stack }
    else .error .failed
  | .store slot, v :: stack =>
    if slot < Scopes.maxSlots then .ok { s with stack := stack, slots := update s.slots slot v }
    else .error .failed
  | .pop, _ :: stack => .ok { s with stack := stack }
  | .branch l, _ => jump lines l s
  | .branchZero l, .int n :: stack =>
    if n = 0 then jump lines l { s with stack := stack } else .ok { s with stack := stack }
  | .call l, _ => jump lines l { s with calls := s.code :: s.calls }
  | .returnCall, _ =>
    match s.calls with
    | back :: calls => .ok { s with code := back, calls := calls }
    | [] => .error .failed
  | .finish, v :: _ => .error (.returned v s.env)
  | _, _ => .error .failed

/-- One step of a program of the machine. Behind the last line the only value is returned. -/
def step (I : Interp Env) (lines : List Line) (s : State Env) : Except (Outcome Env) (State Env) :=
  match s.code with
  | line :: rest =>
    if line.isOperation then operate I line { s with code := rest }
    else move lines line { s with code := rest }
  | [] =>
    match s.stack with
    | [v] => .error (.returned v s.env)
    | _ => .error .failed

/-- The first state of a program: at its first line, with nothing on the stack and zero in the slots. -/
def start (lines : List Line) (env : Env) : State Env :=
  ⟨lines, [], fun _ => .int 0, [], ⟨[], []⟩, env⟩

/-- The outcome of a run that ends within so many steps. -/
def run (I : Interp Env) (lines : List Line) : Nat → State Env → Option (Outcome Env)
  | 0, _ => none
  | n + 1, s =>
    match step I lines s with
    | .ok t => run I lines n t
    | .error outcome => some outcome

end Teal.Semantics
