/-!
The literal pool: the integers and byte strings of a program, each kind once, in the order in which
they were first met. Positions never change. The truth values 0 and 1 are always the first integers.
-/

namespace Teal

/-- A place in the pool. -/
inductive Pool.Ref where
  | int (index : Nat)
  | bytes (index : Nat)
deriving DecidableEq, Inhabited

structure Pool where
  ints : List UInt64
  bytes : List (List UInt8)
deriving DecidableEq, Inhabited

namespace Pool

/-- Values by their offsets, and the offsets by values. -/
structure Table (α : Type) where
  values : List α := []
  offset? : α → Option Nat := fun _ => none
  inverse : ∀ a i, offset? a = some i ↔ values[i]? = some a := by simp

namespace Table

variable {α : Type} [DecidableEq α]

/-- A value that has no offset gets the one behind the last. -/
def push (t : Table α) (a : α) (h : t.offset? a = none) : Table α where
  values := t.values ++ [a]
  offset? b := if b = a then some t.values.length else t.offset? b
  inverse b i := by
    have hnew : t.values[i]? ≠ some a := fun hi => by simp [(t.inverse a i).mpr hi] at h
    have hold := t.inverse b i
    grind

/-- The offset of a value, which is added at the end if it is new. -/
def intern (a : α) (t : Table α) : Nat × Table α :=
  match h : t.offset? a with
  | some i => (i, t)
  | none => (t.values.length, t.push a h)

variable {t : Table α} {a : α}

omit [DecidableEq α] in
theorem offset?_eq_none_iff : t.offset? a = none ↔ a ∉ t.values := by
  rw [List.mem_iff_getElem?, not_exists, Option.eq_none_iff_forall_ne_some]
  exact forall_congr' fun i => not_congr (t.inverse a i)

theorem intern_of_getElem? {i : Nat} (h : t.values[i]? = some a) : t.intern a = (i, t) := by
  have hoffset := (t.inverse a i).mpr h
  unfold intern
  split
  · next j hj => rw [hoffset] at hj; cases hj; rfl
  · next hnone => rw [hoffset] at hnone; cases hnone

theorem intern_of_notMem (h : a ∉ t.values) :
    t.intern a = (t.values.length, t.push a (offset?_eq_none_iff.mpr h)) := by
  have hnone := offset?_eq_none_iff.mpr h
  unfold intern
  split
  · next i hi => rw [hnone] at hi; cases hi
  · rfl

/-- A value stands at its offset, and no other value moves. -/
theorem intern_spec (a : α) (t : Table α) :
    (t.intern a).2.values[(t.intern a).1]? = some a ∧ t.values <+: (t.intern a).2.values := by
  by_cases ha : a ∈ t.values
  · obtain ⟨i, hi⟩ := List.mem_iff_getElem?.mp ha
    rw [intern_of_getElem? hi]
    exact ⟨hi, List.prefix_rfl⟩
  · rw [intern_of_notMem ha]
    exact ⟨List.getElem?_concat_length, List.prefix_append _ _⟩

end Table

/-- A pool while it is filled. -/
structure Tables where
  ints : Table UInt64 := {}
  bytes : Table (List UInt8) := {}

namespace Tables

def pool (t : Tables) : Pool := ⟨t.ints.values, t.bytes.values⟩

def internInt (n : UInt64) (t : Tables) : Ref × Tables :=
  let (i, ints) := t.ints.intern n
  (.int i, { t with ints := ints })

def internBytes (bs : List UInt8) (t : Tables) : Ref × Tables :=
  let (i, bytes) := t.bytes.intern bs
  (.bytes i, { t with bytes := bytes })

def initial : Tables := ((({} : Tables).internInt 0).2.internInt 1).2

end Tables

/-- The instruction that pushes an entry; the first four of a kind have one of their own. -/
def Ref.loadText : Ref → String
  | .int i => if i < 4 then s!"intc_{i}" else s!"intc {i}"
  | .bytes i => if i < 4 then s!"bytec_{i}" else s!"bytec {i}"

end Pool

end Teal
