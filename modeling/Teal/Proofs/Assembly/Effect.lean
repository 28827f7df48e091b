import Teal.Assembly
import Teal.Proofs.Builtin.Call

/-! How many values each line of assembly takes from the stack and leaves on it. An operation that is
called by name takes the arguments of its entry in the catalog that are not immediates, and leaves as
many values as the entry has results. Folding a call keeps these numbers in step with the arguments
that are still pushed. -/

namespace Teal.Builtin

open List

/-- Whether an immediate stands for an argument that is not pushed. -/
def Immediate.isNumber : Immediate → Bool
  | .number _ => true
  | .field _ => false

def popsOf (op : String) (immediates : List Immediate) : Nat :=
  match find? op with
  | some b => b.stackParams.length - (immediates.filter (·.isNumber)).length
  | none => 0

def pushesOf (op : String) : Nat :=
  match find? op with
  | some b => b.results.length
  | none => 0

variable {b : Builtin} {α : Type} {args : List α}

theorem results_valid (hb : b ∈ catalog) : ∀ ty ∈ b.results, ty ≠ .invalid := by
  have h : ∀ b ∈ catalog, ∀ ty ∈ b.results, ty ≠ .invalid := by decide
  exact h b hb

theorem assetField_shape (hb : b ∈ catalog) (hf : b.folding = some .assetField) : b.results.length = 2 := by
  have h : ∀ b ∈ catalog, b.folding = some .assetField → b.results.length = 2 := by decide
  exact h b hb hf

theorem fieldTable_valid (table : Field.Table) : ∀ f ∈ table.fields, f.ty ≠ .invalid := by
  cases table <;> decide

/-- What is left of a call agrees with the arguments that are left: there is one for each shape, the
operation takes just these and leaves one value for each result, none of them invalid. -/
structure Call.Agrees (call : Call) (args : Nat) : Prop where
  params : call.params.length = args
  pops : popsOf call.op call.immediates = args
  pushes : pushesOf call.op = call.results.length
  results : ∀ ty ∈ call.results, ty ≠ .invalid

variable (hb : b ∈ catalog)

include hb

theorem unfolded_agrees : b.unfolded.Agrees b.stackParams.length where
  params := rfl
  pops := by simp [unfolded, popsOf, find?_name hb]
  pushes := by simp [unfolded, pushesOf, find?_name hb]
  results := results_valid hb

/-- Folding two indices keeps agreement, also when it falls back on an operation of the same shape. -/
theorem foldIndices_agrees (hf : b.folding = some .substring ∨ b.folding = some .extract)
    (hargs : args.length = b.stackParams.length) {fallback : String} (hpops : popsOf fallback [] = 3)
    (hpushes : pushesOf fallback = 1) (indices : Option (UInt8 × UInt8)) :
    (foldIndices b.unfolded args fallback indices).1.Agrees
        (foldIndices b.unfolded args fallback indices).2.length ∧
      (foldIndices b.unfolded args fallback indices).2.Sublist args := by
  obtain ⟨hparams, hresults⟩ := foldedIndices_shape hb hf
  rw [hparams] at hargs
  cases indices with
  | none =>
    refine ⟨⟨?_, ?_, ?_, results_valid hb⟩, List.Sublist.refl args⟩
    · change b.stackParams.length = args.length
      rw [hparams, hargs]
    · change popsOf fallback [] = args.length
      rw [hpops, hargs]
    · change pushesOf fallback = b.results.length
      rw [hpushes, hresults]
  | some pair =>
    obtain ⟨first, second⟩ := pair
    have hlen : (args.take 1).length = 1 := by rw [length_take, hargs]; rfl
    refine ⟨⟨?_, ?_, ?_, results_valid hb⟩, take_sublist 1 args⟩
    · change (b.stackParams.take 1).length = (args.take 1).length
      rw [hlen, length_take, hparams]
      rfl
    · change popsOf b.name [.number first, .number second] = (args.take 1).length
      simp [popsOf, find?_name hb, hparams, hlen, Immediate.isNumber]
    · change pushesOf b.name = b.results.length
      simp [pushesOf, find?_name hb]

theorem foldedField_agrees (hf : b.folding = some .assetField)
    {table : Field.Table} {field : Field} (hfield : field ∈ table.fields) : Call.Agrees
      { b.unfolded with immediates := [.field field.name], results := [field.ty, .integer] }
      b.stackParams.length where
  params := rfl
  pops := by
    change popsOf b.name [.field field.name] = b.stackParams.length
    simp [popsOf, find?_name hb, Immediate.isNumber]
  pushes := by
    change pushesOf b.name = 2
    simp [pushesOf, find?_name hb, assetField_shape hb hf]
  results := by
    intro ty hmem
    simp only [mem_cons, not_mem_nil, or_false] at hmem
    rcases hmem with rfl | rfl
    · exact fieldTable_valid table field hfield
    · decide

theorem instantiate_agrees (hargs : args.length = b.stackParams.length)
    {consts : List ConstArg} {version : Nat} {call : Call} {kept : List α}
    (h : b.instantiate args consts version = .ok (call, kept)) :
    call.Agrees kept.length ∧ kept.Sublist args := by
  rcases instantiate_cases h with ⟨_, rfl, rfl⟩ | ⟨fallback, indices, hf, _, hfold⟩ |
    ⟨table, rest, field, hfield, hf, _, _, rfl, rfl⟩
  · exact ⟨hargs ▸ unfolded_agrees hb, List.Sublist.refl _⟩
  · have hfallback : popsOf fallback [] = 3 ∧ pushesOf fallback = 1 := by
      rcases hf with ⟨_, rfl⟩ | ⟨_, rfl⟩ <;> decide
    have hagrees := foldIndices_agrees hb (hf.imp And.left And.left) hargs hfallback.1 hfallback.2
      indices
    rw [hfold] at hagrees
    exact hagrees
  · exact ⟨hargs ▸ foldedField_agrees hb hf hfield, List.Sublist.refl _⟩

end Teal.Builtin

namespace Teal.Assembly

def FieldOp.pops : FieldOp → Nat
  | .txnas | .gtxnas _ | .gtxns | .gtxnsa _ => 1
  | .gtxnsas => 2
  | _ => 0

def Line.pops : Line → Nat
  | .store _ | .unary _ | .args | .pop | .branchZero _ | .finish | .innerField _ => 1
  | .binary _ => 2
  | .builtin op immediates => Builtin.popsOf op immediates
  | .field op _ => op.pops
  | _ => 0

/-- Number of values that a line leaves on the stack. A call leaves what the subroutine returns. -/
def Line.pushes : Line → Nat
  | .literal _ | .load _ | .unary _ | .binary _ | .field _ _ | .arg _ | .args | .call _ => 1
  | .builtin op _ => Builtin.pushesOf op
  | _ => 0

/-- Whether a line applies an operation to the values it takes. All else moves values or control. -/
def Line.isOperation : Line → Bool
  | .unary _ | .binary _ | .builtin _ _ | .field _ _ | .arg _ | .args | .innerBegin | .innerField _
  | .innerSubmit => true
  | _ => false

end Teal.Assembly
