import Teal.Proofs.Token.Passage
import Teal.Proofs.Tree.LaidUnique
import Teal.Proofs.Tree.Parser.Accepted

/-! The places of a tree that was parsed from a text. A node has the place of the tokens it takes, so its parts
lie in it, one behind the other. The tokens of an expression say all about it: the text at its place is scanned
to them and parsed to the same expression, only closer to the start. -/

namespace Teal.Tree

/-- The expressions in a node that stand in no other. -/
def Node.exprs : Node → List Expr
  | .expr e => [e]
  | .block _ b => stmtsExprs b.stmts
  | .stmt s => s.exprs
  | .item i => i.exprs
  | .word _ | .target _ | .import _ => []

/-- A part of a node that is no expression has no other expressions than the node. -/
theorem exprs_of_part {n m : Node} (hm : m ∈ n.parts) {d : Expr} (hd : d ∈ m.exprs) :
    d ∈ n.exprs ∨ ∃ e, n = .expr e ∧ m = .expr d := by
  have hparam {p : Param} (hp : m ∈ nodesIn p.pieces) : m.exprs = [] := by
    obtain ⟨name, _ | ty⟩ := p <;> grind [Param.pieces, nodesIn, Node.exprs]
  cases n with
  | word => cases hm
  | expr e =>
    refine .inr ⟨e, rfl, ?_⟩
    cases e <;> simp [Node.parts, Node.front, Node.back, nodesIn_joined] at hm <;> grind [Node.exprs]
  | target t =>
    cases t <;> simp [Node.parts, Node.front, Node.back] at hm
    grind [Node.exprs]
  | block behindElse b =>
    simp only [Node.parts, Node.front, Node.back, nodesIn, nodesIn_append, nodesIn_map, List.append_nil] at hm
    obtain ⟨s, hs, rfl⟩ := List.mem_map.mp hm
    rw [Node.exprs, stmtsExprs_eq]
    exact .inl (List.mem_flatMap.mpr ⟨s, hs, hd⟩)
  | stmt s =>
    cases s <;> simp [Node.parts, Node.front, Node.back, Decl.pieces, nodesIn_joined] at hm <;>
      grind [Node.exprs, Stmt.exprs]
  | item i =>
    cases i <;> simp [Node.parts, Node.front, Node.back, Decl.pieces, nodesIn_joined] at hm <;>
      grind [nodesIn, Node.exprs, Item.exprs]
  | «import» => cases hm

inductive Module.Has (file : Module) : Node → Prop
  | «import» {i : Import × Span} (hi : i ∈ file.imports) : Has file (.import i)
  | item {i : Item} (hi : i ∈ file.items) : Has file (.item i)
  | part {n m : Node} (hn : Has file n) (hm : m ∈ n.parts) : Has file m

end Teal.Tree

namespace Teal.Parser

open Teal.Tree List

variable {room : Nat} {F : Freedom → Prop} {e : Expr} {ts : List Token}

theorem FileRead.node {tokens : List Token} {file : Tree.Module} {ds : List Diagnostic}
    (h : FileRead tokens room file tokens ds) {n : Node} (hn : file.Has n) :
    (∃ before ts after, tokens = before ++ (ts ++ after) ∧ Laid anyFreedom n ts) ∧
      ∀ e ∈ n.exprs, Known tokens room e := by
  induction hn with
  | «import» hi =>
    refine ⟨h.laid.exists_of_mem ?_, nofun⟩
    exact mem_append_left _ (mem_map_of_mem hi)
  | item hi =>
    refine ⟨h.laid.exists_of_mem ?_, fun e he => h.noted.each e (mem_flatMap.mpr ⟨_, hi, he⟩)⟩
    exact mem_append_right _ (mem_map_of_mem hi)
  | part hn hm ih =>
    obtain ⟨⟨before, ts, after, htokens, hlaid⟩, hknown⟩ := ih
    refine ⟨?_, fun d hd => ?_⟩
    · obtain ⟨before', us, after', rfl, hus⟩ := hlaid.part hm
      exact ⟨before ++ before', us, after' ++ after, by simp [htokens], hus⟩
    · rcases exprs_of_part hm hd with hd | ⟨e, rfl, rfl⟩
      · exact hknown d hd
      · exact (hknown e (mem_singleton_self e)).part hm

end Teal.Parser

namespace Teal.Tree

open List

/-- A node has the place of the tokens it takes, which is not empty, and its parts lie in it, one behind the
other. -/
structure Placed (file : FileId) (tokens : List Token) (n : Node) : Prop where
  taken : ∃ before ts after first last, tokens = before ++ (ts ++ after) ∧ Laid anyFreedom n ts ∧
    ts.head? = some first ∧ ts.getLast? = some last ∧ n.span = ⟨file, first.span.lo, last.span.hi⟩
  start_lt : n.span.start < n.span.stop
  fits : n.Fits

end Teal.Tree
