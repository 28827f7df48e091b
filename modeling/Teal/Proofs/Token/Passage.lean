import Teal.Proofs.Token.Tiling

/-!
Passages of a text without fault. What a piece is does not change if the text is cut off somewhere behind it,
so a part that starts with a token and ends with one is scanned to the tokens in it, as far away from its start
as they are from the start of the part in the text.
-/

namespace Teal

open List Option

/-- A place some bytes further on, as far as offsets go before they start over. -/
def Span.shift (d : Nat) (s : Span) : Span := ⟨s.file, s.lo + d.toUInt32, s.hi + d.toUInt32⟩

theorem Span.shift_between (file : FileId) (m n d : Nat) :
    (between file m n).shift d = between file (m + d) (n + d) := by
  simp only [shift, between, Nat.toUInt32_eq, UInt32.ofNat_add]

def Token.shift (d : Nat) (t : Token) : Token := ⟨t.lexeme, t.span.shift d⟩

namespace Scan

variable {cs : List Char} {n k : Nat} {c : Char} {file : FileId}

theorem commentLength?_take (h : commentLength? cs = some k) (hn : k ≤ n) :
    commentLength? (cs.take n) = some k := by
  fun_induction commentLength? cs generalizing n k with
  | case1 => cases h
  | case2 cs =>
    cases h
    obtain ⟨n, rfl⟩ := Nat.exists_eq_add_of_le' hn
    rfl
  | case3 c cs hopen ih =>
    obtain ⟨k, hk, rfl⟩ := map_eq_some_iff.mp h
    obtain ⟨n, rfl⟩ := Nat.exists_eq_add_of_le' (Nat.le_of_add_left_le hn)
    rw [take_succ_cons, commentLength?, ih hk (Nat.le_of_succ_le_succ hn)]
    · rfl
    · intro rest hc hrest
      obtain ⟨rest', hrest'⟩ := head?_eq_some_iff.mp (head?_take (congrArg List.head? hrest))
      exact hopen rest' hc hrest'

/-- A piece without fault stays as it is if what stands behind it is cut off. -/
theorem piece_take (h : (piece c cs).fault = none) (hn : (piece c cs).more ≤ n) :
    piece c (cs.take n) = piece c cs := by
  have hsound := piece_sound h
  generalize hp : piece c cs = p at hsound hn
  cases hsound with
  | space hc => rw [piece, if_pos hc]
  | line hc hcs =>
    obtain ⟨rest, rfl⟩ := head?_eq_some_iff.mp hcs
    obtain ⟨body, after, rfl, hbody, hstop⟩ := exists_takeWhile (· != '\n') rest
    have hall : ∀ d ∈ '/' :: body, (d != '\n') = true := forall_mem_cons.mpr ⟨rfl, hbody⟩
    rw [← cons_append] at hn ⊢
    rw [takeWhile_stop hall hstop] at hn ⊢
    obtain ⟨k, rfl⟩ := Nat.exists_eq_add_of_le hn
    subst hc
    rw [piece, if_neg (by decide), if_pos, takeWhile_take hall hstop]
    simp [Nat.add_right_comm]
  | block hc hcs hk =>
    obtain ⟨rest, rfl⟩ := head?_eq_some_iff.mp hcs
    obtain ⟨n, rfl⟩ := Nat.exists_eq_add_of_le' (Nat.le_of_add_left_le hn)
    subst hc
    rw [take_succ_cons, piece, if_neg (by decide), if_neg (by simp), if_pos (by simp)]
    simp only [drop_succ_cons, drop_zero] at hk ⊢
    rw [commentLength?_take hk (Nat.le_of_succ_le_succ hn)]
  | lexeme hcut hmore => exact hcut n hn

/-- What is scanned from a piece on, with some of what stands behind it. -/
theorem run_cons_take {p : Piece} (hp : piece c cs = p) (hfault : p.fault = none) (offset n : Nat) :
    run file offset (c :: cs.take (p.more + n)) =
      let stop := offset + Text.byteSize (c :: cs.take p.more)
      let rest := run file stop ((cs.drop p.more).take n)
      { rest with tokens := (p.lexeme.map (⟨·, .between file offset stop⟩)).toList ++ rest.tokens } := by
  subst hp
  have hpiece := piece_take hfault (Nat.le_add_right _ n)
  rw [run]
  simp [hpiece, hfault, take_take, drop_take]

/-- A part at the start of some characters, scanned as from an offset, yields tokens that are shifted, and it
ends at a place that is. -/
def Leads (file : FileId) (start d : Nat) (cs : List Char) (ts : List Token) (stop : UInt32) :
    Prop :=
  ∃ n, (run file start (cs.take n)).diagnostics = [] ∧ (run file start (cs.take n)).tokens.map (.shift d) = ts ∧
    stop = (start + d + Text.byteSize (cs.take n)).toUInt32

theorem Leads.nil (file : FileId) (start d : Nat) (cs : List Char) :
    Leads file start d cs [] (start + d).toUInt32 :=
  ⟨0, by simp [run], by simp [run], by simp⟩

theorem Leads.cons {p : Piece} (hp : piece c cs = p) (hfault : p.fault = none) {start d : Nat}
    {stop : UInt32} {ts : List Token}
    (h : Leads file (start + Text.byteSize (c :: cs.take p.more)) d (cs.drop p.more) ts stop) :
    Leads file start d (c :: cs) ((p.lexeme.map
      (⟨·, .between file (start + d) (start + Text.byteSize (c :: cs.take p.more) + d)⟩)).toList ++ ts) stop := by
  obtain ⟨n, hclean, rfl, rfl⟩ := h
  refine ⟨p.more + n + 1, ?_⟩
  rw [take_succ_cons, run_cons_take hp hfault]
  refine ⟨hclean, ?_, ?_⟩
  · rw [map_append]
    cases p.lexeme with
    | none => rfl
    | some l => simp [Token.shift, Span.shift_between]
  · rw [take_add, ← cons_append, Text.byteSize_append]
    congr 1
    omega

end Scan

end Teal
