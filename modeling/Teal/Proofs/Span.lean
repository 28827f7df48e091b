import Teal.Excerpt

/-!
Places that lie in a text. Offsets count bytes, so not every offset up to the size of a text is one
between two of its characters; a place in the text starts and stops at such offsets. A byte count that
fits in 32 bits is kept as it is.
-/

namespace Teal

namespace Text

@[simp] theorem byteSize_nil : byteSize [] = 0 := rfl

@[simp] theorem byteSize_cons (c : Char) (cs : List Char) :
    byteSize (c :: cs) = c.utf8Size + byteSize cs := rfl

@[simp] theorem byteSize_append (before after : List Char) :
    byteSize (before ++ after) = byteSize before + byteSize after := by
  induction before with
  | nil => rw [List.nil_append, byteSize_nil, Nat.zero_add]
  | cons c cs ih => rw [List.cons_append, byteSize_cons, byteSize_cons, ih, Nat.add_assoc]

theorem byteSize_pos {cs : List Char} (h : cs ≠ []) : 0 < byteSize cs := by
  obtain ⟨c, cs, rfl⟩ := List.exists_cons_of_ne_nil h
  exact Nat.lt_of_lt_of_le c.utf8Size_pos (Nat.le_add_right _ _)

theorem utf8ByteSize_ofList (cs : List Char) : (String.ofList cs).utf8ByteSize = byteSize cs := by
  induction cs with
  | nil => rfl
  | cons c cs ih => rw [String.ofList_cons, String.utf8ByteSize_append, String.utf8ByteSize_singleton, ih,
      byteSize_cons]

theorem byteSize_toList (text : String) : byteSize text.toList = text.utf8ByteSize := by
  rw [← utf8ByteSize_ofList, String.ofList_toList]

/-- The size of what stands before a character is an offset between characters. -/
theorem isValid_byteSize {text : String} {before after : List Char}
    (h : text.toList = before ++ after) : String.Pos.Raw.IsValid text ⟨byteSize before⟩ := by
  refine String.Pos.Raw.isValid_iff_exists_append.mpr ⟨.ofList before, .ofList after, ?_, ?_⟩
  · rw [← String.ofList_append, ← h, String.ofList_toList]
  · rw [String.rawEndPos, utf8ByteSize_ofList]

end Text

namespace Span

theorem start_between {m : Nat} (file : FileId) (n : Nat) (h : m < UInt32.size) :
    (between file m n).start = m :=
  UInt32.toNat_ofNat_of_lt' h

theorem stop_between {n : Nat} (file : FileId) (m : Nat) (h : n < UInt32.size) :
    (between file m n).stop = n :=
  UInt32.toNat_ofNat_of_lt' h

theorem start_merge (a b : Span) : (a.merge b).start = min a.start b.start := by
  change (if a.lo ≤ b.lo then a.lo else b.lo).toNat = _
  split
  · next h => exact (Nat.min_eq_left (UInt32.le_iff_toNat_le.mp h)).symm
  · next h => exact (Nat.min_eq_right (Nat.le_of_not_le fun h' => h (UInt32.le_iff_toNat_le.mpr h'))).symm

theorem stop_merge (a b : Span) : (a.merge b).stop = max a.stop b.stop := by
  change (if a.hi ≤ b.hi then b.hi else a.hi).toNat = _
  split
  · next h => exact (Nat.max_eq_right (UInt32.le_iff_toNat_le.mp h)).symm
  · next h => exact (Nat.max_eq_left (Nat.le_of_not_le fun h' => h (UInt32.le_iff_toNat_le.mpr h'))).symm

/-- The place starts and stops between characters of a text, and does not stop before it starts. -/
structure LiesIn (s : Span) (text : String) : Prop where
  ordered : s.start ≤ s.stop
  stop_le : s.stop ≤ text.utf8ByteSize
  start_valid : String.Pos.Raw.IsValid text ⟨s.start⟩
  stop_valid : String.Pos.Raw.IsValid text ⟨s.stop⟩

theorem liesIn_of_append {text : String} {before word after : List Char} (file : FileId)
    (h : text.toList = before ++ word ++ after) (hsmall : text.utf8ByteSize < UInt32.size) :
    (between file (Text.byteSize before) (Text.byteSize (before ++ word))).LiesIn text := by
  have hword : Text.byteSize before ≤ Text.byteSize (before ++ word) := by
    rw [Text.byteSize_append]
    exact Nat.le_add_right _ _
  have hall : Text.byteSize (before ++ word) ≤ text.utf8ByteSize := by
    rw [← Text.byteSize_toList, h, Text.byteSize_append (before ++ word)]
    exact Nat.le_add_right _ _
  have hstop := Nat.lt_of_le_of_lt hall hsmall
  have hstart := Nat.lt_of_le_of_lt hword hstop
  constructor <;> simp only [start_between _ _ hstart, stop_between _ _ hstop]
  · exact hword
  · exact hall
  · exact Text.isValid_byteSize (h.trans (List.append_assoc _ _ _))
  · exact Text.isValid_byteSize h

theorem liesIn_fileStart (file : FileId) (text : String) : (fileStart file).LiesIn text where
  ordered := Nat.le_refl _
  stop_le := Nat.zero_le _
  start_valid := String.Pos.Raw.isValid_zero
  stop_valid := String.Pos.Raw.isValid_zero

theorem liesIn_merge {a b : Span} {text : String} (ha : a.LiesIn text) (hb : b.LiesIn text) :
    (a.merge b).LiesIn text := by
  constructor <;> simp only [start_merge, stop_merge]
  · exact Nat.le_trans (Nat.min_le_left _ _) (Nat.le_trans ha.ordered (Nat.le_max_left _ _))
  · exact Nat.max_le.mpr ⟨ha.stop_le, hb.stop_le⟩
  · rcases Nat.le_total a.start b.start with h | h
    · rw [Nat.min_eq_left h]
      exact ha.start_valid
    · rw [Nat.min_eq_right h]
      exact hb.start_valid
  · rcases Nat.le_total a.stop b.stop with h | h
    · rw [Nat.max_eq_right h]
      exact hb.stop_valid
    · rw [Nat.max_eq_left h]
      exact ha.stop_valid

end Span

end Teal
