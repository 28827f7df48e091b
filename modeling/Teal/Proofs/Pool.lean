import Teal.Proofs.Assembly.Versions
import Teal.Proofs.Text.Hex

/-! The literal pool over whole runs. A value gets its place when it is first asked for and keeps it, so
that places and values determine each other at any time. The lines that fill the pool can be read back,
number by number and byte string by byte string. -/

namespace Teal.Pool

open List
open Program (Literal poolValue? poolValue?_of_isPrefix)

/-! ### One kind of values -/

namespace Table

variable {α : Type} [DecidableEq α] {t : Table α} {a : α}

theorem intern_snd_of_mem (ha : a ∈ t.values) : (t.intern a).2 = t := by
  obtain ⟨i, hi⟩ := mem_iff_getElem?.mp ha
  rw [intern_of_getElem? hi]

omit [DecidableEq α] in
/-- A value has one offset, so it stands nowhere else. -/
theorem nodup_values (t : Table α) : t.values.Nodup := by
  refine nodup_iff_getElem?_ne_getElem?.mpr fun i j hij hj heq => ?_
  have hi := (t.inverse _ _).mpr (heq.trans (getElem?_eq_getElem hj))
  rw [(t.inverse _ _).mpr (getElem?_eq_getElem hj)] at hi
  exact Nat.ne_of_lt hij (Option.some.inj hi).symm

/-- Values with the offsets that they have in a list. -/
def ofNodup (values : List α) (h : values.Nodup) : Table α where
  values := values
  offset? := values.idxOf?
  inverse a i := by
    constructor
    · intro hi
      obtain ⟨hlt, hget, _⟩ := idxOf?_eq_some_iff.mp hi
      rw [getElem?_eq_getElem hlt, hget]
    · intro hi
      obtain ⟨hlt, rfl⟩ := List.getElem?_eq_some_iff.mp hi
      exact idxOf?_eq_some_iff.mpr ⟨hlt, rfl, fun j hj heq => Nat.ne_of_lt hj (h.getElem_inj_iff.mp heq)⟩

omit [DecidableEq α] in
/-- The offsets are determined by the values. -/
theorem of_values {t t' : Table α} (h : t.values = t'.values) : t = t' := by
  obtain ⟨values, offset?, inverse⟩ := t
  obtain ⟨values', offset?', inverse'⟩ := t'
  obtain rfl : values = values' := h
  obtain rfl : offset? = offset?' :=
    funext fun a => Option.ext fun i => (inverse a i).trans (inverse' a i).symm
  rfl

/-- Values that are asked for one after the other are added in the order of their first use. -/
theorem values_foldl_intern [BEq α] [LawfulBEq α] (t : Table α) (as : List α) :
    (as.foldl (fun t a => (t.intern a).2) t).values = t.values ++ (as.removeAll t.values).eraseDups := by
  induction as generalizing t with
  | nil => simp [List.removeAll]
  | cons a as ih =>
    rw [foldl_cons, ih]
    by_cases ha : a ∈ t.values
    · have hskip : (a :: as).removeAll t.values = as.removeAll t.values := by simp [List.removeAll, ha]
      rw [intern_snd_of_mem ha, hskip]
    · have hkeep : (a :: as).removeAll t.values = a :: as.removeAll t.values := by simp [List.removeAll, ha]
      have hrest : as.removeAll (t.values ++ [a]) = (as.removeAll t.values).filter fun b => !b == a := by
        simp only [List.removeAll, filter_filter]
        refine filter_congr fun b _ => ?_
        by_cases hb : b = a <;> simp [hb]
      rw [intern_of_notMem ha, hkeep, eraseDups_cons, ← hrest]
      simp [push]

end Table

/-! ### One call -/

def intern : Literal → Tables → Ref × Tables
  | .int n => Tables.internInt n
  | .bytes bs => Tables.internBytes bs

variable {t : Tables}

/-- The value is at the place that is returned for it. -/
theorem poolValue?_intern (v : Literal) (t : Tables) :
    poolValue? (intern v t).2.pool (intern v t).1 = some v := by
  cases v with
  | int n => exact Option.map_eq_some_iff.mpr ⟨n, (t.ints.intern_spec n).1, rfl⟩
  | bytes bs => exact Option.map_eq_some_iff.mpr ⟨bs, (t.bytes.intern_spec bs).1, rfl⟩

variable {ref : Ref} {w : Literal}

/-- No other place changes. -/
theorem poolValue?_intern_of_some (h : poolValue? t.pool ref = some w) (v : Literal) :
    poolValue? (intern v t).2.pool ref = some w := by
  cases v with
  | int n =>
    have hints : t.pool.ints <+: (t.internInt n).2.pool.ints := (t.ints.intern_spec n).2
    exact poolValue?_of_isPrefix hints prefix_rfl h
  | bytes bs =>
    have hbytes : t.pool.bytes <+: (t.internBytes bs).2.pool.bytes := (t.bytes.intern_spec bs).2
    have hints : t.pool.ints <+: (t.internBytes bs).2.pool.ints := prefix_rfl
    exact poolValue?_of_isPrefix hints hbytes h

/-- A value that has a place is found there. -/
theorem intern_of_poolValue? {v : Literal} (h : poolValue? t.pool ref = some v) : intern v t = (ref, t) := by
  cases ref with
  | int i =>
    obtain ⟨n, hn, rfl⟩ := Option.map_eq_some_iff.mp h
    simp only [intern, Tables.internInt, Table.intern_of_getElem? hn]
  | bytes i =>
    obtain ⟨bs, hbs, rfl⟩ := Option.map_eq_some_iff.mp h
    simp only [intern, Tables.internBytes, Table.intern_of_getElem? hbs]

/-! ### Runs -/

/-- The tables behind calls for values, from given ones on. -/
def internAll (t : Tables) (vs : List Literal) : Tables := vs.foldl (fun t v => (intern v t).2) t

def filled (vs : List Literal) : Tables := internAll .initial vs

def after (vs : List Literal) : Pool := (filled vs).pool

/-- What a call for a value returns behind earlier calls on a new pool. -/
def answer (earlier : List Literal) (v : Literal) : Ref := (intern v (filled earlier)).1

theorem poolValue?_internAll (h : poolValue? t.pool ref = some w) (vs : List Literal) :
    poolValue? (internAll t vs).pool ref = some w := by
  induction vs generalizing t with
  | nil => exact h
  | cons v vs ih => exact ih (poolValue?_intern_of_some h v)

variable (earlier : List Literal)

theorem filled_append_cons (v : Literal) (later : List Literal) :
    filled (earlier ++ v :: later) = internAll (intern v (filled earlier)).2 later := by
  rw [filled, internAll, foldl_append]
  rfl

theorem poolValue?_answer (v : Literal) (later : List Literal) :
    poolValue? (after (earlier ++ v :: later)) (answer earlier v) = some v := by
  rw [after, filled_append_cons]
  exact poolValue?_internAll (poolValue?_intern v (filled earlier)) later

theorem answer_eq_iff (v : Literal) (between : List Literal) (w : Literal) :
    answer earlier v = answer (earlier ++ v :: between) w ↔ v = w := by
  have hfirst := poolValue?_answer earlier v between
  constructor
  · intro h
    -- behind the second call both values are at the place
    have hsecond := poolValue?_intern w (filled (earlier ++ v :: between))
    have hkept := poolValue?_intern_of_some hfirst w
    rw [h] at hkept
    exact Option.some.inj (hkept.symm.trans hsecond)
  · rintro rfl
    exact (congrArg Prod.fst (intern_of_poolValue? hfirst)).symm

def intsOf (vs : List Literal) : List UInt64 :=
  vs.filterMap fun | .int n => some n | .bytes _ => none

def bytesOf (vs : List Literal) : List (List UInt8) :=
  vs.filterMap fun | .int _ => none | .bytes bs => some bs

theorem internAll_eq (t : Tables) (vs : List Literal) :
    internAll t vs = ⟨(intsOf vs).foldl (fun t a => (t.intern a).2) t.ints,
      (bytesOf vs).foldl (fun t a => (t.intern a).2) t.bytes⟩ := by
  induction vs generalizing t with
  | nil => rfl
  | cons v vs ih =>
    cases v with
    | int n => exact ih (t.internInt n).2
    | bytes bs => exact ih (t.internBytes bs).2

theorem ints_after (vs : List Literal) :
    (after vs).ints = [0, 1] ++ ((intsOf vs).filter fun n => n ≠ 0 ∧ n ≠ 1).eraseDups := by
  have hothers : (intsOf vs).removeAll [0, 1] = (intsOf vs).filter fun n => n ≠ 0 ∧ n ≠ 1 := by
    refine filter_congr fun n _ => ?_
    by_cases h0 : n = 0 <;> by_cases h1 : n = 1 <;> simp [h0, h1]
  rw [after, filled, internAll_eq, ← hothers]
  exact Table.values_foldl_intern Tables.initial.ints (intsOf vs)

theorem bytes_after (vs : List Literal) : (after vs).bytes = (bytesOf vs).eraseDups := by
  have hall : (bytesOf vs).removeAll [] = bytesOf vs := by simp [List.removeAll]
  rw [after, filled, internAll_eq]
  exact (Table.values_foldl_intern {} (bytesOf vs)).trans (by rw [hall, nil_append])

/-! ### Reading the lines -/

def int? (word : List Char) : Option UInt64 :=
  let value := Nat.ofDigitChars 10 word 0
  if word ≠ [] ∧ word.all Char.isDigit ∧ value < UInt64.size then some (.ofNat value) else none

def bytes? : List Char → Option (List UInt8)
  | '0' :: 'x' :: digits => Text.bytesOfHex? digits
  | _ => none

/-- What a line adds to the pool. Its words are set apart by single blanks, and the first tells the kind. -/
def readLine? (text : String) : Option Pool :=
  match text.toList.splitOn ' ' with
  | [] => none
  | op :: words =>
    if op = "intcblock".toList then (words.mapM int?).map fun ints => ⟨ints, []⟩
    else if op = "bytecblock".toList then (words.mapM bytes?).map fun bytes => ⟨[], bytes⟩
    else none

/-- The pool that lines fill, none of which may do anything else. -/
def read? (texts : List String) : Option Pool :=
  (texts.mapM readLine?).map fun pools => ⟨pools.flatMap (·.ints), pools.flatMap (·.bytes)⟩

theorem mapM_words {α : Type} {write : α → String} {value? : List Char → Option α}
    (h : ∀ a, value? (write a).toList = some a) (l : List α) :
    ((l.map write).map String.toList).mapM value? = some l := by
  induction l with
  | nil => rfl
  | cons a l ih =>
    rw [map_cons, map_cons, mapM_cons, h a, ih]
    rfl

theorem int?_toString (n : UInt64) : int? (toString n.toNat).toList = some n := by
  have hvalue : Nat.ofDigitChars 10 (Nat.toDigits 10 n.toNat) 0 = n.toNat :=
    Nat.ofDigitChars_toDigits (by decide) (by decide)
  have hdigits : (Nat.toDigits 10 n.toNat).all Char.isDigit = true :=
    all_eq_true.mpr fun _ hc => Assembly.isDigit_of_mem_toDigits hc
  simp only [int?, Assembly.toList_toString, hvalue]
  rw [if_pos ⟨Nat.toDigits_ne_nil, hdigits, n.toNat_lt⟩, UInt64.ofNat_toNat]

theorem bytes?_hex (bs : List UInt8) : bytes? ("0x" ++ Text.hex bs).toList = some bs := by
  have htext : ("0x" ++ Text.hex bs).toList = '0' :: 'x' :: bs.flatMap Text.hexByte := by
    rw [String.toList_append, Text.hex, String.toList_ofList, String.toList_ofList]
    rfl
  rw [htext]
  exact Text.bytesOfHex?_flatMap bs

theorem no_blank_of_hexByte (b : UInt8) : ' ' ∉ Text.hexByte b := by
  have hdigit : ∀ n < 16, ' ' ≠ Nat.digitChar n := by decide
  have hb := b.toNat_lt
  simp only [Text.hexByte, mem_cons, not_mem_nil, or_false, not_or]
  exact ⟨hdigit _ (by omega), hdigit _ (by omega)⟩

/-- The words of a line are those it was put together from. -/
theorem splitOn_line {front op : String} {words : List String} (hfront : front.toList = op.toList ++ [' '])
    (hop : ' ' ∉ op.toList) (hwords : ∀ w ∈ words, ' ' ∉ w.toList) (hne : words ≠ []) :
    (front ++ " ".intercalate words).toList.splitOn ' ' = op.toList :: words.map String.toList := by
  have hline : (front ++ " ".intercalate words).toList =
      [' '].intercalate (op.toList :: words.map String.toList) := by
    obtain ⟨w, ws, rfl⟩ := exists_cons_of_ne_nil hne
    simp [hfront, String.toList_intercalate, intercalate_cons_cons]
  rw [hline, splitOn_intercalate ' ' ?_ (cons_ne_nil _ _)]
  intro l hl
  rcases mem_cons.mp hl with rfl | hl
  · exact hop
  · obtain ⟨w, hw, rfl⟩ := mem_map.mp hl
    exact hwords w hw

theorem readLine?_intBlock {ints : List UInt64} (hne : ints ≠ []) :
    readLine? (Assembly.Line.intBlock ints).text = some ⟨ints, []⟩ := by
  have hblank : ∀ w ∈ ints.map (fun n => toString n.toNat), ' ' ∉ w.toList := by
    intro w hw
    obtain ⟨n, _, rfl⟩ := mem_map.mp hw
    rw [Assembly.toList_toString]
    exact Assembly.no_blank_of_digits n.toNat
  have hfront : "intcblock ".toList = "intcblock".toList ++ [' '] := by decide
  have htext : (Assembly.Line.intBlock ints).text =
      "intcblock " ++ " ".intercalate (ints.map fun n => toString n.toNat) := rfl
  rw [readLine?, htext, splitOn_line hfront (by decide) hblank (by simpa using hne)]
  dsimp only
  rw [if_pos rfl, mapM_words int?_toString]
  rfl

theorem readLine?_byteBlock {bytes : List (List UInt8)} (hne : bytes ≠ []) :
    readLine? (Assembly.Line.byteBlock bytes).text = some ⟨[], bytes⟩ := by
  have hblank : ∀ w ∈ bytes.map (fun bs => "0x" ++ Text.hex bs), ' ' ∉ w.toList := by
    intro w hw
    obtain ⟨bs, _, rfl⟩ := mem_map.mp hw
    simp [Text.hex, no_blank_of_hexByte]
  have hfront : "bytecblock ".toList = "bytecblock".toList ++ [' '] := by decide
  have htext : (Assembly.Line.byteBlock bytes).text =
      "bytecblock " ++ " ".intercalate (bytes.map fun bs => "0x" ++ Text.hex bs) := rfl
  rw [readLine?, htext, splitOn_line hfront (by decide) hblank (by simpa using hne)]
  dsimp only
  rw [if_neg (by decide), if_pos rfl, mapM_words bytes?_hex]
  rfl

/-- Every pool is read back from its lines; a kind without entries has none. -/
theorem read?_poolLines (p : Pool) : read? ((Assembly.poolLines p).map (·.text)) = some p := by
  obtain ⟨ints, bytes⟩ := p
  rw [read?, Assembly.poolLines]
  by_cases hints : ints = [] <;> by_cases hbytes : bytes = []
  all_goals simp [hints, hbytes, readLine?_intBlock, readLine?_byteBlock]

/-- What the pool holds over a run of calls on a new one, and what it returns. The value of a call stays
at the place that the call returned, and two calls return one place just if they are for one value. The
integers are 0, 1 and the others in the order of their first use, the byte strings are in that order too,
and both lists are what is read from the lines that fill the pool. -/
theorem run_faithful :
    (∀ earlier v later, poolValue? (after (earlier ++ v :: later)) (answer earlier v) = some v) ∧
    (∀ earlier v between w, answer earlier v = answer (earlier ++ v :: between) w ↔ v = w) ∧
    ∀ vs, (after vs).ints = [0, 1] ++ ((intsOf vs).filter fun n => n ≠ 0 ∧ n ≠ 1).eraseDups ∧
      (after vs).bytes = (bytesOf vs).eraseDups ∧
      (after vs).ints.Nodup ∧ (after vs).bytes.Nodup ∧
      read? ((Assembly.poolLines (after vs)).map (·.text)) = some (after vs) := by
  refine ⟨poolValue?_answer, answer_eq_iff, fun vs => ?_⟩
  exact ⟨ints_after vs, bytes_after vs, (filled vs).ints.nodup_values, (filled vs).bytes.nodup_values,
    read?_poolLines (after vs)⟩

end Teal.Pool
