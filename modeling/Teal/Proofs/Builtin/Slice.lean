import Mathlib.Data.List.Forall2
import Teal.Program
import Teal.Proofs.Builtin.Call

/-! Operations that cut a piece out of a byte string. A call may have its two indices as immediates or take
them from the stack, and an immediate length of zero means something else than one on the stack.
Whatever is known of the indices when a call is made, the instruction that is chosen has the outcome of
the one that takes everything from the stack; a call that is refused would have failed on every string. -/

namespace Teal.Builtin

open List
open Program (Literal)

/-- The bytes from one place up to another; none if the places are out of order or behind the end. -/
def slice? (x : List UInt8) (start stop : Nat) : Option (List UInt8) :=
  if start ≤ stop ∧ stop ≤ x.length then some ((x.take stop).drop start) else none

/-- The outcome of an instruction that cuts byte strings: the piece, or none if it fails. There is no
outcome if the immediates or the values on the stack, the deepest first, are not those it takes. -/
def cut? : String → List Immediate → List Literal → Option (Option (List UInt8))
  | "substring", [.number start, .number stop], [.bytes x] => some (slice? x start.toNat stop.toNat)
  | "substring3", [], [.bytes x, .int start, .int stop] => some (slice? x start.toNat stop.toNat)
  | "extract", [.number start, .number length], [.bytes x] =>
    -- Here a length of zero stands for all that is left.
    some (slice? x start.toNat (if length = 0 then x.length else start.toNat + length.toNat))
  | "extract3", [], [.bytes x, .int start, .int length] =>
    some (slice? x start.toNat (start.toNat + length.toNat))
  | _, _, _ => none

/-- An operation that cuts byte strings and the opcode that does it with all operands on the stack. -/
def Slices (b : Builtin) (fallback : String) : Prop :=
  find? "substring" = some b ∧ fallback = "substring3" ∨
    find? "extract" = some b ∧ fallback = "extract3"

/-- What is known of an argument is its value, or nothing. -/
def ConstArg.Tells (const : ConstArg) (n : UInt64) : Prop := const = .int n ∨ const = .unknown

/-- The values of a string and two indices in some run, of which so much was known before. -/
structure Runs {α : Type} (value : α → Literal) (e i j : α) (first second : ConstArg) (x : List UInt8)
    (m n : UInt64) : Prop where
  string : value e = .bytes x
  index : value i = .int m
  other : value j = .int n
  first : first.Tells m
  second : second.Tells n

/-- Each argument that is pushed stands beside its place in the source and its shape. -/
def Aligned {α : Type} (b : Builtin) (args kept : List α) (params : List (Nat × ArgShape)) : Prop :=
  List.Forall₂ (fun arg param => ∃ k, param.1 = k + 1 ∧ args[k]? = some arg ∧ b.args[k]? = some param.2)
    kept params

/-- What a call that is made shares with the opcode that takes everything from the stack: in every run both
have the same outcome. Its immediates fit a byte, and what it pushes stands beside its parameters. -/
structure Faithful {α : Type} (b : Builtin) (fallback : String) (e i j : α) (first second : ConstArg)
    (call : Call) (kept : List α) : Prop where
  outcome : ∀ {value x m n}, Runs value e i j first second x m n → ∃ result,
    cut? fallback [] ([e, i, j].map value) = some result ∧
      cut? call.op call.immediates (kept.map value) = some result
  immediates : ∀ immediate ∈ call.immediates, ∃ n, n ≤ maxImmediate ∧ immediate.text = toString n
  aligned : Aligned b [e, i, j] kept call.params

/-! ### Pieces of byte strings -/

theorem slice?_eq_none_of_lt {start stop : Nat} (h : stop < start) (x : List UInt8) :
    slice? x start stop = none :=
  if_neg fun hbounds => Nat.not_lt.mpr hbounds.1 h

variable (x : List UInt8)

theorem cut?_substring3 (m n : UInt64) :
    cut? "substring3" [] [.bytes x, .int m, .int n] = some (slice? x m.toNat n.toNat) := rfl

theorem cut?_extract3 (m n : UInt64) :
    cut? "extract3" [] [.bytes x, .int m, .int n] = some (slice? x m.toNat (m.toNat + n.toNat)) := rfl

theorem cut?_substring (u v : UInt8) :
    cut? "substring" [.number u, .number v] [.bytes x] = some (slice? x u.toNat v.toNat) := rfl

theorem cut?_extract (u : UInt8) {v : UInt8} (hv : v ≠ 0) :
    cut? "extract" [.number u, .number v] [.bytes x] = some (slice? x u.toNat (u.toNat + v.toNat)) := by
  rw [cut?, if_neg hv]

/-! ### What is known of the indices -/

theorem ConstArg.Tells.eq_of_int {m n : UInt64} (h : (ConstArg.int m).Tells n) : m = n := by
  rcases h with h | h
  · exact ConstArg.int.inj h
  · cases h

/-- An immediate has the value of the argument that it stands for. -/
theorem ConstArg.Tells.toNat_immediate {const : ConstArg} {n : UInt64} {u : UInt8}
    (h : const.Tells n) (hu : const.immediate? = some u) : u.toNat = n.toNat := by
  obtain ⟨m, rfl⟩ := immediate?_eq_some hu
  obtain rfl := h.eq_of_int
  rw [ConstArg.immediate?] at hu
  split at hu
  · next hle =>
    cases hu
    have hlt : m.toNat < 2 ^ 8 := Nat.lt_succ_of_le hle
    rw [UInt64.toNat_toUInt8, Nat.mod_eq_of_lt hlt]
  · cases hu

theorem immediates_of_indexPair? {string first second : ConstArg} {u v : UInt8}
    (h : indexPair? [string, first, second] = some (u, v)) :
    first.immediate? = some u ∧ second.immediate? = some v := by
  obtain ⟨u', hu, hrest⟩ := Option.bind_eq_some_iff.mp h
  obtain ⟨v', hv, heq⟩ := Option.bind_eq_some_iff.mp hrest
  cases heq
  exact ⟨hu, hv⟩

/-! ### The two ways to make a call -/

section Calls

variable {α : Type} {b : Builtin} {fallback : String} {e i j : α} {string first second : ConstArg}

theorem Slices.shape (hb : Slices b fallback) : b.args = [.bytes, .int, .int] ∧
    b.stackParams = [(1, .bytes), (2, .int), (3, .int)] := by
  rcases hb with ⟨hb, _⟩ | ⟨hb, _⟩ <;> cases hb <;> decide

theorem Slices.exists_cut? (hb : Slices b fallback) (x : List UInt8) (m n : UInt64) :
    ∃ result, cut? fallback [] [.bytes x, .int m, .int n] = some result := by
  rcases hb with ⟨_, rfl⟩ | ⟨_, rfl⟩
  · exact ⟨_, cut?_substring3 x m n⟩
  · exact ⟨_, cut?_extract3 x m n⟩

theorem Runs.map_eq {value : α → Literal} {x : List UInt8} {m n : UInt64}
    (h : Runs value e i j first second x m n) : [e, i, j].map value = [.bytes x, .int m, .int n] := by
  rw [map_cons, map_cons, map_cons, h.string, h.index, h.other, map_nil]

/-- Everything may be taken from the stack. -/
theorem Slices.faithful_fallback (hb : Slices b fallback) :
    Faithful b fallback e i j first second { b.unfolded with op := fallback } [e, i, j] where
  outcome hruns := by
    obtain ⟨result, hresult⟩ := hb.exists_cut? _ _ _
    rw [hruns.map_eq]
    exact ⟨result, hresult, hresult⟩
  immediates _ h := by cases h
  aligned := by
    rw [Aligned, unfolded, hb.shape.2, hb.shape.1]
    exact .cons ⟨0, rfl, rfl, rfl⟩ (.cons ⟨1, rfl, rfl, rfl⟩ (.cons ⟨2, rfl, rfl, rfl⟩ .nil))

/-- Indices that are known and fit may become immediates, a length only if it is not zero. -/
theorem Slices.faithful_folded (hb : Slices b fallback) {u v : UInt8}
    (hpair : indexPair? [string, first, second] = some (u, v))
    (hlength : b.folding = some .extract → second ≠ .int 0) :
    Faithful b fallback e i j first second
      { b.unfolded with immediates := [.number u, .number v], params := b.unfolded.params.take 1 }
      [e] where
  outcome := by
    intro value x m n hruns
    obtain ⟨hu, hv⟩ := immediates_of_indexPair? hpair
    have hm := hruns.first.toNat_immediate hu
    have hn := hruns.second.toNat_immediate hv
    rw [hruns.map_eq, map_singleton, hruns.string]
    rcases hb with ⟨hb, rfl⟩ | ⟨hb, rfl⟩
    · cases hb
      exact ⟨_, cut?_substring3 x m n, by rw [← hm, ← hn]; exact cut?_substring x u v⟩
    · cases hb
      have hzero : v ≠ 0 := by
        rintro rfl
        obtain ⟨k, rfl⟩ := immediate?_eq_some hv
        obtain rfl := hruns.second.eq_of_int
        exact hlength rfl (congrArg ConstArg.int (UInt64.toNat_inj.mp hn.symm))
      exact ⟨_, cut?_extract3 x m n, by rw [← hm, ← hn]; exact cut?_extract x u hzero⟩
  immediates := by
    have hfits : ∀ w : UInt8, ∃ n, n ≤ maxImmediate ∧ (Immediate.number w).text = toString n :=
      fun w => ⟨w.toNat, Nat.le_of_lt_succ w.toNat_lt, rfl⟩
    intro immediate himmediate
    rcases mem_pair.mp himmediate with rfl | rfl
    · exact hfits u
    · exact hfits v
  aligned := by
    rw [Aligned, unfolded, hb.shape.2, hb.shape.1]
    exact .cons ⟨0, rfl, rfl, rfl⟩ .nil

/-- A call of `substring` is refused only if both ends are known to be out of order. -/
theorem instantiate_substring (hb : find? "substring" = some b) (e i j : α)
    (string first second : ConstArg) (version : Nat) :
    (∃ m n, first = .int m ∧ second = .int n ∧ n < m ∧
      b.instantiate [e, i, j] [string, first, second] version = .error (.reversed m n)) ∨
    b.instantiate [e, i, j] [string, first, second] version =
      .ok (foldIndices b.unfolded [e, i, j] "substring3" (indexPair? [string, first, second])) := by
  cases hb
  cases first with
  | int m =>
    cases second with
    | int n =>
      by_cases hlt : n < m
      · exact .inl ⟨m, n, rfl, rfl, hlt, if_pos hlt⟩
      · exact .inr (if_neg hlt)
    | name | unknown => exact .inr rfl
  | name | unknown => exact .inr rfl

/-- A call of `extract` is never refused; a length that is known to be zero stays on the stack. -/
theorem instantiate_extract (hb : find? "extract" = some b) (e i j : α)
    (string first second : ConstArg) (version : Nat) :
    b.instantiate [e, i, j] [string, first, second] version =
      .ok (foldIndices b.unfolded [e, i, j] "extract3"
        (if second = .int 0 then none else indexPair? [string, first, second])) := by
  cases hb
  by_cases hzero : second = .int 0
  · rw [if_pos hzero]
    exact if_pos hzero
  · rw [if_neg hzero]
    exact if_neg hzero

theorem Slices.faithful_foldIndices (hb : Slices b fallback) {indices : Option (UInt8 × UInt8)}
    (hindices : ∀ pair, indices = some pair → indexPair? [string, first, second] = some pair ∧
      (b.folding = some .extract → second ≠ .int 0)) {call : Call} {kept : List α}
    (h : foldIndices b.unfolded [e, i, j] fallback indices = (call, kept)) :
    Faithful b fallback e i j first second call kept := by
  cases indices with
  | none =>
    cases h
    exact hb.faithful_fallback
  | some pair =>
    cases h
    exact hb.faithful_folded (hindices pair rfl).1 (hindices pair rfl).2

end Calls

/-- Whatever is known of the indices, a call that is made is faithful to the opcode that takes everything
from the stack, and where a call is refused that opcode would fail. -/
theorem instantiate_faithful {α : Type} {b : Builtin} {fallback : String} (hb : Slices b fallback)
    (e i j : α) (string first second : ConstArg) (version : Nat) :
    (∀ {call kept}, b.instantiate [e, i, j] [string, first, second] version = .ok (call, kept) →
      Faithful b fallback e i j first second call kept) ∧
    ∀ {fault}, b.instantiate [e, i, j] [string, first, second] version = .error fault →
      ∀ {value x m n}, Runs value e i j first second x m n →
        cut? fallback [] ([e, i, j].map value) = some none := by
  rcases id hb with ⟨hfind, rfl⟩ | ⟨hfind, rfl⟩
  · have hother : b.folding ≠ some .extract := by
      cases hfind
      decide
    rcases instantiate_substring hfind e i j string first second version with
      ⟨m, n, rfl, rfl, hlt, herror⟩ | hok
    · rw [herror]
      refine ⟨fun h => (by cases h), ?_⟩
      intro _ _ value x m' n' hruns
      rw [hruns.map_eq, cut?_substring3, ← hruns.first.eq_of_int, ← hruns.second.eq_of_int,
        slice?_eq_none_of_lt (UInt64.lt_iff_toNat_lt.mp hlt)]
    · rw [hok]
      refine ⟨fun h => ?_, fun h => (by cases h)⟩
      exact hb.faithful_foldIndices (fun pair hpair => ⟨hpair, fun h => absurd h hother⟩)
        (Except.ok.inj h)
  · rw [instantiate_extract hfind e i j string first second version]
    refine ⟨fun h => ?_, fun h => (by cases h)⟩
    have hindices : ∀ pair, (if second = .int 0 then none else indexPair? [string, first, second]) =
        some pair → indexPair? [string, first, second] = some pair ∧
          (b.folding = some .extract → second ≠ .int 0) := by
      intro pair hpair
      split at hpair
      · cases hpair
      · next hzero => exact ⟨hpair, fun _ => hzero⟩
    exact hb.faithful_foldIndices hindices (Except.ok.inj h)

/-- Two bytes that are cut out with both indices as immediates, and a call that is refused. -/
theorem instantiate_faithful_sample :
    (∃ b call kept, Slices b "extract3" ∧
      b.instantiate [Literal.bytes [7, 8, 9, 10], .int 1, .int 2] [.unknown, .int 1, .int 2] 5 =
        .ok (call, kept) ∧ call.op = "extract" ∧
      cut? "extract3" [] [.bytes [7, 8, 9, 10], .int 1, .int 2] = some (some [8, 9]) ∧
      Faithful b "extract3" (.bytes [7, 8, 9, 10]) (.int 1) (.int 2) (.int 1) (.int 2) call kept) ∧
    ∃ b, Slices b "substring3" ∧
      b.instantiate [Literal.bytes [7, 8, 9, 10], .int 3, .int 1] [.unknown, .int 3, .int 1] 5 =
        .error (.reversed 3 1) ∧
      cut? "substring3" [] [.bytes [7, 8, 9, 10], .int 3, .int 1] = some none := by
  have hextract : Slices (.folded "extract" [.bytes, .int, .int] [.bytes] 5 .extract) "extract3" :=
    .inr ⟨rfl, rfl⟩
  have hsubstring : Slices (.folded "substring" [.bytes, .int, .int] [.bytes] 2 .substring)
      "substring3" := .inl ⟨rfl, rfl⟩
  constructor
  · exact ⟨_, _, _, hextract, rfl, rfl, rfl,
      (instantiate_faithful hextract _ _ _ .unknown _ _ 5).1 rfl⟩
  · have hruns : Runs id (.bytes [7, 8, 9, 10]) (.int 3) (.int 1) (.int 3) (.int 1)
        [7, 8, 9, 10] 3 1 := ⟨rfl, rfl, rfl, .inl rfl, .inl rfl⟩
    exact ⟨_, hsubstring, rfl, (instantiate_faithful hsubstring _ _ _ .unknown _ _ 5).2 rfl hruns⟩

end Teal.Builtin
