import Teal.Builtin

/-! What a call that is made has in common with the entry of the catalog it is written with. It has the
name of the entry; each argument is either pushed or part of the instruction; and where the version has
the entry, it has the opcode of the call and the field that is part of it. -/

namespace Teal

open List

def Field.Table.Knows (table : Field.Table) (version : Nat) (name : String) : Prop :=
  ∃ f, table.find? name = some f ∧ f.minVersion ≤ version

instance (table : Field.Table) (version : Nat) (name : String) :
    Decidable (table.Knows version name) :=
  decidable_of_iff ((table.find? name).any (fun f => decide (f.minVersion ≤ version)) = true)
    (by simp [Field.Table.Knows, Option.any_eq_true])

namespace Builtin

/-- The opcodes that calls fall back on. -/
def fallbacks : List String := ["substring3", "extract3"]

/-- A version has the opcode of a call. If the opcode reads a field, then the name of one that the version
has is the only immediate. -/
def KnownIn (version : Nat) (op : String) (immediates : List Immediate) : Prop :=
  ∃ b, find? op = some b ∧ (b.callable = true ∨ op ∈ fallbacks) ∧ b.minVersion ≤ version ∧
    ∀ table, .field table ∈ b.args → ∃ name, immediates = [.field name] ∧ table.Knows version name

variable {b : Builtin} {call : Call} {version : Nat} {α : Type} {consts : List ConstArg}

theorem find?_name (hb : b ∈ catalog) : find? b.name = some b := by
  have h : ∀ b ∈ catalog, find? b.name = some b := by decide +kernel
  exact h b hb

theorem mem_catalog_of_find? {name : String} (h : find? name = some b) : b ∈ catalog :=
  mem_of_find?_eq_some h

/-! ### How a call is made -/

variable {table : Field.Table} {const : ConstArg} {args kept : List α}

theorem foldField_eq_ok {folded : Call} (h : foldField call table version const = .ok folded) :
    ∃ field ∈ table.fields, table.Knows version field.name ∧
      folded = { call with immediates := [.field field.name], results := [field.ty, .integer] } := by
  cases const with
  | int n => cases h
  | unknown => cases h
  | name name =>
    rw [foldField] at h
    cases hfield : table.find? name with
    | none => rw [hfield] at h; cases h
    | some field =>
      rw [hfield] at h
      by_cases hversion : version < field.minVersion
      · simp only [if_pos hversion] at h
        cases h
      · simp only [if_neg hversion] at h
        cases h
        have hname : field.name = name := by simpa using find?_some hfield
        exact ⟨field, mem_of_find?_eq_some hfield,
          ⟨field, hname ▸ hfield, Nat.le_of_not_lt hversion⟩, rfl⟩

/-- The ways in which a call is made: as it is written, with indices folded or an opcode that takes them
from the stack, or with the name of a field folded. -/
theorem instantiate_cases (h : b.instantiate args consts version = .ok (call, kept)) :
    (b.folding = none ∧ call = b.unfolded ∧ kept = args) ∨
    (∃ fallback indices, (b.folding = some .substring ∧ fallback = "substring3" ∨
        b.folding = some .extract ∧ fallback = "extract3") ∧
      (indices = none ∨ indices = indexPair? consts) ∧
      foldIndices b.unfolded args fallback indices = (call, kept)) ∨
    ∃ table rest, ∃ field ∈ table.fields, b.folding = some .assetField ∧
      b.args = .field table :: rest ∧ table.Knows version field.name ∧ kept = args ∧
      call = { b.unfolded with immediates := [.field field.name], results := [field.ty, .integer] } := by
  unfold instantiate at h
  split at h
  · next hf =>
    cases h
    exact .inl ⟨hf, rfl, rfl⟩
  · next hf =>
    refine .inr (.inl ⟨"substring3", indexPair? consts, .inl ⟨hf, rfl⟩, .inr rfl, ?_⟩)
    split at h
    · split at h
      · cases h
      · exact Except.ok.inj h
    · exact Except.ok.inj h
  · next hf =>
    split at h
    · exact .inr (.inl ⟨"extract3", none, .inr ⟨hf, rfl⟩, .inl rfl, Except.ok.inj h⟩)
    · exact .inr (.inl ⟨"extract3", indexPair? consts, .inr ⟨hf, rfl⟩, .inr rfl,
        Except.ok.inj h⟩)
  · next hf =>
    split at h
    · next table rest hargs =>
      cases hfold : foldField b.unfolded table version (constAt consts 0) with
      | error fault => rw [hfold] at h; cases h
      | ok folded =>
        rw [hfold] at h
        cases h
        obtain ⟨field, hmem, hknows, rfl⟩ := foldField_eq_ok hfold
        exact .inr (.inr ⟨table, rest, field, hmem, hf, hargs, hknows, rfl, rfl⟩)
    · cases h

/-! ### Arguments -/

/-- Only a field is an argument that is never pushed, and one is folded whenever there is one. -/
theorem length_args (hb : b ∈ catalog) : b.args.length =
    b.stackParams.length + if b.folding = some .assetField then 1 else 0 := by
  have h : ∀ b ∈ catalog, b.args.length =
      b.stackParams.length + if b.folding = some .assetField then 1 else 0 := by decide
  exact h b hb

/-- The two operations whose indices are folded take three arguments and leave one value. -/
theorem foldedIndices_shape (hb : b ∈ catalog)
    (hf : b.folding = some .substring ∨ b.folding = some .extract) :
    b.stackParams.length = 3 ∧ b.results.length = 1 := by
  have h : ∀ b ∈ catalog, b.folding = some .substring ∨ b.folding = some .extract →
      b.stackParams.length = 3 ∧ b.results.length = 1 := by decide
  exact h b hb hf

/-- Every argument of a call is either pushed or part of the instruction. -/
theorem instantiate_counts (hb : b ∈ catalog) (hargs : args.length = b.stackParams.length)
    (h : b.instantiate args consts version = .ok (call, kept)) :
    call.name = b.name ∧ kept.length + call.immediates.length = b.args.length := by
  have hlength := length_args hb
  rcases instantiate_cases h with ⟨hf, rfl, rfl⟩ | ⟨fallback, indices, hf, _, hfold⟩ |
    ⟨table, rest, field, _, hf, _, _, rfl, rfl⟩
  · rw [hf, if_neg (by decide)] at hlength
    exact ⟨rfl, hargs.trans hlength.symm⟩
  · have hshape := foldedIndices_shape hb (hf.imp And.left And.left)
    have hother : b.folding ≠ some .assetField := by
      rcases hf with ⟨hf, _⟩ | ⟨hf, _⟩ <;> rw [hf] <;> decide
    rw [if_neg hother] at hlength
    cases indices with
    | none =>
      cases hfold
      exact ⟨rfl, hargs.trans hlength.symm⟩
    | some pair =>
      cases hfold
      refine ⟨rfl, ?_⟩
      rw [length_take, hargs, hlength, hshape.1]
      rfl
  · rw [if_pos hf] at hlength
    exact ⟨rfl, by rw [hlength, hargs]; rfl⟩

theorem immediate?_eq_some {n : UInt8} (h : const.immediate? = some n) : ∃ m, const = .int m := by
  cases const with
  | int m => exact ⟨m, rfl⟩
  | name | unknown => cases h

theorem indexPair?_eq_some {pair : UInt8 × UInt8} (h : indexPair? consts = some pair) :
    ∃ m n, constAt consts 1 = .int m ∧ constAt consts 2 = .int n := by
  obtain ⟨a, ha, hrest⟩ := Option.bind_eq_some_iff.mp h
  obtain ⟨c, hc, _⟩ := Option.bind_eq_some_iff.mp hrest
  obtain ⟨m, hm⟩ := immediate?_eq_some ha
  obtain ⟨n, hn⟩ := immediate?_eq_some hc
  exact ⟨m, n, hm, hn⟩

variable (hb : b ∈ catalog)

include hb

/-- All arguments are pushed, unless two indices are known that became part of the instruction. -/
theorem instantiate_kept (hargs : args.length = b.stackParams.length)
    (h : b.instantiate args consts version = .ok (call, kept)) :
    kept = args ∨ kept = args.take 1 ∧ args.length = 3 ∧ b.args.length = 3 ∧
      ∃ m n, constAt consts 1 = .int m ∧ constAt consts 2 = .int n := by
  rcases instantiate_cases h with ⟨_, _, rfl⟩ | ⟨fallback, indices, hf, hindices, hfold⟩ |
    ⟨table, rest, field, _, _, _, _, rfl, _⟩
  · exact .inl rfl
  · cases indices with
    | none =>
      cases hfold
      exact .inl rfl
    | some pair =>
      cases hfold
      have hlength := length_args hb
      have hother : b.folding ≠ some .assetField := by
        rcases hf with ⟨hf, _⟩ | ⟨hf, _⟩ <;> rw [hf] <;> decide
      rw [if_neg hother, (foldedIndices_shape hb (hf.imp And.left And.left)).1] at hlength
      rw [(foldedIndices_shape hb (hf.imp And.left And.left)).1] at hargs
      rcases hindices with hindices | hindices
      · cases hindices
      · exact .inr ⟨rfl, hargs, hlength, indexPair?_eq_some hindices.symm⟩
  · exact .inl rfl

/-! ### Versions -/

/-- Only operations whose field is folded read one, and it is their first argument. -/
theorem field_mem_args (h : .field table ∈ b.args) :
    b.folding = some .assetField ∧ ∀ shape ∈ b.args.tail, shape.isField = false := by
  have hall : ∀ b ∈ catalog, b.args.any (·.isField) = true →
      b.folding = some .assetField ∧ ∀ shape ∈ b.args.tail, shape.isField = false := by decide
  exact hall b hb (any_eq_true.mpr ⟨_, h, rfl⟩)

/-- The opcodes that take indices from the stack are as old as those that have them as immediates. -/
theorem fallback_minVersion {fallback : String}
    (hf : b.folding = some .substring ∧ fallback = "substring3" ∨
      b.folding = some .extract ∧ fallback = "extract3") :
    ∃ x, find? fallback = some x ∧ x.minVersion ≤ b.minVersion ∧ x.folding = none := by
  have h : ∀ b ∈ catalog,
      (b.folding = some .substring → (find? "substring3").any
        (fun x => decide (x.minVersion ≤ b.minVersion ∧ x.folding = none)) = true) ∧
      (b.folding = some .extract → (find? "extract3").any
        (fun x => decide (x.minVersion ≤ b.minVersion ∧ x.folding = none)) = true) := by decide
  have hany : (find? fallback).any
      (fun x => decide (x.minVersion ≤ b.minVersion ∧ x.folding = none)) = true := by
    rcases hf with ⟨hf, rfl⟩ | ⟨hf, rfl⟩
    · exact (h b hb).1 hf
    · exact (h b hb).2 hf
  cases hx : find? fallback with
  | none => rw [hx] at hany; cases hany
  | some x =>
    rw [hx] at hany
    exact ⟨x, rfl, of_decide_eq_true hany⟩

/-- Where a version has an entry that programs may call, it has all that a call of it needs. -/
theorem instantiate_knownIn (hcallable : b.callable = true)
    (hversion : b.minVersion ≤ version) (h : b.instantiate args consts version = .ok (call, kept)) :
    KnownIn version call.op call.immediates := by
  rcases instantiate_cases h with ⟨hf, rfl, _⟩ | ⟨fallback, indices, hf, _, hfold⟩ |
    ⟨table, rest, field, _, _, hargs, hknows, _, rfl⟩
  · refine ⟨b, find?_name hb, .inl hcallable, hversion, ?_⟩
    intro table htable
    rw [(field_mem_args hb htable).1] at hf
    cases hf
  · cases indices with
    | none =>
      cases hfold
      obtain ⟨x, hx, hle, hnone⟩ := fallback_minVersion hb hf
      refine ⟨x, hx, .inr ?_, Nat.le_trans hle hversion, ?_⟩
      · rcases hf with ⟨_, rfl⟩ | ⟨_, rfl⟩ <;> simp [fallbacks]
      · intro table htable
        rw [(field_mem_args (mem_catalog_of_find? hx) htable).1] at hnone
        cases hnone
    | some pair =>
      cases hfold
      refine ⟨b, find?_name hb, .inl hcallable, hversion, ?_⟩
      intro table htable
      rw [(field_mem_args hb htable).1] at hf
      rcases hf with ⟨hf, _⟩ | ⟨hf, _⟩ <;> cases hf
  · refine ⟨b, find?_name hb, .inl hcallable, hversion, ?_⟩
    intro other hother
    have htail := (field_mem_args hb hother).2
    rw [hargs] at hother htail
    rcases mem_cons.mp hother with heq | hrest
    · cases heq
      exact ⟨field.name, rfl, hknows⟩
    · cases htail _ hrest

end Builtin

end Teal
