import Teal.Proofs.Program.Resolved

/-! The numbers that a program's conditions, loops and calls carry, in the order in which the builder
gives them out. -/

namespace Teal.Program

open List

mutual

def Expr.labels : Expr → List Nat
  | .literal _ _ _ | .ident _ _ _ => []
  | .unary _ _ e | .group _ e | .cast _ _ e => e.labels
  | .binary _ _ l r => l.labels ++ r.labels
  | .call _ _ _ site args => exprsLabels args ++ [site]
  | .builtin _ _ args => exprsLabels args
  | .cond _ label test yes no => label :: (test.labels ++ yes.labels ++ no.labels)
  | .field _ source _ => source.labels
  | .fieldAt _ source _ i => source.labels ++ i.labels
  | .arg _ i => i.labels

def Index.labels : Index → List Nat
  | .const _ => []
  | .dynamic e => e.labels

def FieldSource.labels : FieldSource → List Nat
  | .gtxn i => i.labels
  | .txn | .global | .itxn => []

def exprsLabels : List Expr → List Nat
  | [] => []
  | e :: rest => e.labels ++ exprsLabels rest

end

mutual

/-- Numbers of the conditions, loops, choices and calls in a statement. -/
def Stmt.labels : Stmt → List Nat
  | .varDecl _ _ _ value | .constDecl _ _ value | .assign _ _ _ value | .setField _ _ value
  | .ret _ value | .expr _ value => value.labels
  | .innerBegin _ | .innerSubmit _ | .error _ | .breakLoop _ => []
  | .ifThen _ label test yes => label :: (test.labels ++ blockLabels yes)
  | .ifElse _ label test yes no => label :: (test.labels ++ blockLabels yes ++ blockLabels no)
  | .loop _ label test body => label :: (test.labels ++ blockLabels body)

def blockLabels : List Stmt → List Nat
  | [] => []
  | s :: rest => s.labels ++ blockLabels rest

end

theorem exprsLabels_eq (es : List Expr) : exprsLabels es = es.flatMap Expr.labels := by
  induction es with
  | nil => rfl
  | cons e rest ih => rw [exprsLabels, ih, flatMap_cons]

theorem blockLabels_append (a b : List Stmt) : blockLabels (a ++ b) = blockLabels a ++ blockLabels b := by
  induction a with
  | nil => rfl
  | cons s rest ih => simp only [cons_append, blockLabels, ih, append_assoc]

theorem Index.labels_eq (i : Index) : i.labels = exprsLabels i.exprs := by
  cases i <;> simp [Index.labels, Index.exprs, exprsLabels]

theorem FieldSource.labels_eq (source : FieldSource) : source.labels = exprsLabels source.exprs := by
  cases source with
  | gtxn i => exact i.labels_eq
  | txn | global | itxn => rfl

/-- Distinct numbers that were given out between two counts. -/
structure Fresh (lo hi : Nat) (labels : List Nat) : Prop where
  nodup : labels.Nodup
  range : ∀ n ∈ labels, lo ≤ n ∧ n < hi

namespace Fresh

variable {lo mid hi : Nat} {l l' : List Nat}

theorem nil (lo hi : Nat) : Fresh lo hi [] := ⟨nodup_nil, by simp⟩

theorem mono (h : Fresh lo hi l) {lo' hi' : Nat} (hlo : lo' ≤ lo) (hhi : hi ≤ hi') : Fresh lo' hi' l :=
  ⟨h.nodup, fun n hn => ⟨Nat.le_trans hlo (h.range n hn).1, Nat.lt_of_lt_of_le (h.range n hn).2 hhi⟩⟩

theorem sublist (h : Fresh lo hi l) (hsub : l'.Sublist l) : Fresh lo hi l' :=
  ⟨hsub.nodup h.nodup, fun n hn => h.range n (hsub.subset hn)⟩

theorem append (h : Fresh lo mid l) (h' : Fresh mid hi l') (hlo : lo ≤ mid) (hhi : mid ≤ hi) :
    Fresh lo hi (l ++ l') := by
  refine ⟨nodup_append.mpr ⟨h.nodup, h'.nodup, ?_⟩, ?_⟩
  · rintro a ha c hc rfl
    exact Nat.lt_irrefl a (Nat.lt_of_lt_of_le (h.range a ha).2 (h'.range a hc).1)
  · intro n hn
    rcases mem_append.mp hn with hn | hn
    · exact ⟨(h.range n hn).1, Nat.lt_of_lt_of_le (h.range n hn).2 hhi⟩
    · exact ⟨Nat.le_trans hlo (h'.range n hn).1, (h'.range n hn).2⟩

/-- The next number stands before all that are given out later. -/
theorem cons (h : Fresh (lo + 1) hi l) (hle : lo + 1 ≤ hi) : Fresh lo hi (lo :: l) := by
  have hfirst : Fresh lo (lo + 1) [lo] :=
    ⟨pairwise_singleton _ lo, fun n hn => by simp at hn; omega⟩
  exact hfirst.append h (Nat.le_succ lo) hle

/-- The next number stands behind all that were given out before. -/
theorem snoc (h : Fresh lo hi l) (hle : lo ≤ hi) : Fresh lo (hi + 1) (l ++ [hi]) := by
  have hlast : Fresh hi (hi + 1) [hi] :=
    ⟨pairwise_singleton _ hi, fun n hn => by simp at hn; omega⟩
  exact h.append hlast hle (Nat.le_succ hi)

end Fresh

end Teal.Program
