import Teal.Proofs.Assembly.LabelText
import Teal.Proofs.Compile.Total

/-! Emitted assembly needs nothing that its version lacks. The rules are read off the text of a line: its
first word is the opcode, and an opcode that reads a field has the name of the field at a fixed place.
What the builder establishes of a node is enough for its line, and bodies that stand in place of calls
are no exception, since they are built for the same version. -/

namespace Teal.Assembly

open List
open Program (Expr Index FieldSource Stmt Function)

/-! ### Words of a line -/

/-- The word of a text at a place, from 0 on. Words are set apart by single blanks. -/
def wordAt : Nat → List Char → List Char
  | 0, text => text.takeWhile (· != ' ')
  | place + 1, text => wordAt place ((text.dropWhile (· != ' ')).drop 1)

def Line.word (line : Line) (place : Nat) : String := .ofList (wordAt place line.text.toList)

/-- Opcodes beyond the catalog that not every version has, with the first that has them. -/
def laterOpcodes : List (String × Nat) :=
  [("callsub", 4), ("retsub", 4), ("gtxns", 3), ("gtxnsa", 3), ("txnas", 5), ("gtxnas", 5),
    ("gtxnsas", 5), ("args", 5), ("itxn", 5), ("itxna", 5), ("itxn_begin", 5), ("itxn_field", 5),
    ("itxn_submit", 5)]

/-- Opcodes with the name of a field among their operands: the table of the field and the place of its
name in the line. -/
def fieldOpcodes : List (String × Field.Table × Nat) :=
  [("txn", .txn, 1), ("txna", .txn, 1), ("txnas", .txn, 1), ("gtxn", .txn, 2), ("gtxna", .txn, 2),
    ("gtxnas", .txn, 2), ("gtxns", .txn, 1), ("gtxnsa", .txn, 1), ("gtxnsas", .txn, 1),
    ("global", .global, 1), ("itxn", .txn, 1), ("itxna", .txn, 1), ("itxn_field", .txn, 1),
    ("asset_holding_get", .assetHolding, 1), ("asset_params_get", .assetParams, 1)]

structure Line.AllowedAt (version : Nat) (line : Line) : Prop where
  builtin : ∀ b, Builtin.find? (line.word 0) = some b → b.minVersion ≤ version
  later : ∀ since, (line.word 0, since) ∈ laterOpcodes → since ≤ version
  field : ∀ table place, (line.word 0, table, place) ∈ fieldOpcodes →
    table.Knows version (line.word place)

variable {version : Nat} {line : Line} {op : String} {f : Field}

theorem Line.allowedAt_iff : line.AllowedAt version ↔
    (∀ b ∈ Builtin.find? (line.word 0), b.minVersion ≤ version) ∧
      (∀ x ∈ laterOpcodes, x.1 = line.word 0 → x.2 ≤ version) ∧
      ∀ x ∈ fieldOpcodes, x.1 = line.word 0 → x.2.1.Knows version (line.word x.2.2) := by
  constructor
  · intro h
    refine ⟨h.builtin, ?_, ?_⟩
    · intro x hx heq
      exact h.later x.2 (heq ▸ hx)
    · intro x hx heq
      exact h.field x.2.1 x.2.2 (heq ▸ hx)
  · intro h
    exact ⟨h.1, fun since hsince => h.2.1 _ hsince rfl, fun table place hplace => h.2.2 _ hplace rfl⟩

instance (version : Nat) (line : Line) : Decidable (line.AllowedAt version) :=
  decidable_of_iff' _ Line.allowedAt_iff

def ruledOpcodes : List String :=
  Builtin.catalog.map (·.name) ++ laterOpcodes.map (·.1) ++ fieldOpcodes.map (·.1)

theorem allowedAt_of_not_ruled (h : line.word 0 ∉ ruledOpcodes) : line.AllowedAt version where
  builtin := by
    intro b hb
    have hname : b.name = line.word 0 := by simpa using find?_some hb
    refine absurd ?_ h
    exact mem_append_left _ (mem_append_left _
      (mem_map.mpr ⟨b, Builtin.mem_catalog_of_find? hb, hname⟩))
  later := by
    intro since hsince
    refine absurd ?_ h
    exact mem_append_left _ (mem_append_right _ (mem_map.mpr ⟨_, hsince, rfl⟩))
  field := by
    intro table place hfield
    refine absurd ?_ h
    exact mem_append_right _ (mem_map.mpr ⟨_, hfield, rfl⟩)

theorem wordAt_zero {word rest : List Char} (hword : ' ' ∉ word) (hrest : ∀ c ∈ rest.head?, c = ' ') :
    wordAt 0 (word ++ rest) = word := by
  apply takeWhile_append_stop
  · intro c hc
    exact bne_iff_ne.mpr fun heq => hword (heq ▸ hc)
  · intro c hc
    rw [hrest c hc]
    rfl

theorem wordAt_succ {word : List Char} (hword : ' ' ∉ word) (rest : List Char) (place : Nat) :
    wordAt (place + 1) (word ++ ' ' :: rest) = wordAt place rest := by
  have hall : ∀ c ∈ word, (c != ' ') = true := fun c hc =>
    bne_iff_ne.mpr fun heq => hword (heq ▸ hc)
  rw [wordAt, dropWhile_append_of_pos hall]
  rfl

/-- A text consists of a word, or the word and a blank stand at its start. -/
def Starts (text word : String) : Prop :=
  ' ' ∉ word.toList ∧ ∃ rest, text.toList = word.toList ++ rest ∧ ∀ c ∈ rest.head?, c = ' '

theorem starts_self {word : String} (h : ' ' ∉ word.toList) : Starts word word :=
  ⟨h, [], by simp⟩

theorem starts_blank (word tail : String) {opening : String} (hopening : opening = word ++ " " ++ tail)
    (h : ' ' ∉ word.toList) (rest : String) : Starts (opening ++ rest) word :=
  ⟨h, ' ' :: (tail ++ rest).toList, by simp [hopening], by simp⟩

theorem starts_intercalate {word : String} (h : ' ' ∉ word.toList) (words : List String) :
    Starts (" ".intercalate (word :: words)) word := by
  cases words with
  | nil =>
    rw [String.intercalate_singleton]
    exact starts_self h
  | cons next rest =>
    rw [String.intercalate_cons_cons]
    exact starts_blank word "" (String.append_empty).symm h _

theorem Starts.word {word : String} (h : Starts line.text word) : line.word 0 = word := by
  obtain ⟨hblank, rest, htext, hrest⟩ := h
  rw [Line.word, htext, wordAt_zero hblank hrest, String.ofList_toList]

/-- Words that are set apart by blanks can be read back. -/
theorem wordAt_intercalate {words : List String} {place : Nat} {word : String}
    (hword : words[place]? = some word) (hblank : ∀ w ∈ words.take (place + 1), ' ' ∉ w.toList) :
    wordAt place (" ".intercalate words).toList = word.toList := by
  induction words generalizing place with
  | nil => cases hword
  | cons w rest ih =>
    have hw : ' ' ∉ w.toList := hblank w mem_cons_self
    cases place with
    | zero =>
      cases hword
      obtain ⟨_, tail, htext, htail⟩ := starts_intercalate hw rest
      rw [htext, wordAt_zero hw htail]
    | succ place =>
      cases rest with
      | nil => cases hword
      | cons next rest =>
        rw [String.intercalate_cons_cons, String.append_assoc, String.toList_append, String.toList_append]
        refine (wordAt_succ hw _ place).trans (ih hword ?_)
        exact fun x hx => hblank x (mem_cons_of_mem _ hx)

/-! ### Lines without rules -/

/-- Opcodes of lines that every version has. -/
def plainOpcodes : List String :=
  ["#pragma", "intcblock", "bytecblock", "intc_0", "intc_1", "intc_2", "intc_3", "intc", "bytec_0",
    "bytec_1", "bytec_2", "bytec_3", "bytec", "load", "store", "arg_0", "arg_1", "arg_2", "arg_3",
    "arg", "pop", "b", "bz", "return", "err"] ++ UnOp.all.map (·.text) ++ BinOp.all.map (·.text)

theorem unary_mem_plain (op : UnOp) : op.text ∈ plainOpcodes := by
  have hop : op ∈ UnOp.all := by cases op <;> decide
  exact mem_append_left _ (mem_append_right _ (mem_map_of_mem hop))

theorem binary_mem_plain (op : BinOp) : op.text ∈ plainOpcodes := by
  have hop : op ∈ BinOp.all := by cases op <;> decide
  exact mem_append_right _ (mem_map_of_mem hop)

theorem not_ruled_of_plain (h : op ∈ plainOpcodes) : ' ' ∉ op.toList ∧ op ∉ ruledOpcodes := by
  have hall : ∀ op ∈ plainOpcodes, ' ' ∉ op.toList ∧ op ∉ ruledOpcodes := by decide +kernel
  exact hall op h

theorem allowedAt_of_starts (op : String) (hop : op ∈ plainOpcodes) (h : Starts line.text op) :
    line.AllowedAt version :=
  allowedAt_of_not_ruled (h.word ▸ (not_ruled_of_plain hop).2)

theorem allowedAt_of_plain (op : String) (hop : op ∈ plainOpcodes) (h : line.text = op) :
    line.AllowedAt version := by
  refine allowedAt_of_starts op hop ?_
  rw [h]
  exact starts_self (not_ruled_of_plain hop).1

/-- The first four of a kind have opcodes of their own. -/
theorem numbered_mem (stem : String)
    (hstem : ∀ digit ∈ ["0", "1", "2", "3"], stem ++ digit ∈ plainOpcodes) {i : Nat} (h : i < 4) :
    stem ++ toString i ∈ plainOpcodes := by
  refine hstem _ ?_
  obtain rfl | rfl | rfl | rfl : i = 0 ∨ i = 1 ∨ i = 2 ∨ i = 3 := by omega
  all_goals decide

theorem literal_allowedAt (version : Nat) (ref : Pool.Ref) : (Line.literal ref).AllowedAt version := by
  cases ref with
  | int i =>
    by_cases hi : i < 4
    · exact allowedAt_of_plain _ (numbered_mem "intc_" (by simp [plainOpcodes]) hi) (if_pos hi)
    · have htext : (Line.literal (.int i)).text = "intc " ++ toString i := if_neg hi
      refine allowedAt_of_starts "intc" (by simp [plainOpcodes]) ?_
      rw [htext]
      exact starts_blank "intc" "" (by decide) (by decide) _
  | bytes i =>
    by_cases hi : i < 4
    · exact allowedAt_of_plain _ (numbered_mem "bytec_" (by simp [plainOpcodes]) hi) (if_pos hi)
    · have htext : (Line.literal (.bytes i)).text = "bytec " ++ toString i := if_neg hi
      refine allowedAt_of_starts "bytec" (by simp [plainOpcodes]) ?_
      rw [htext]
      exact starts_blank "bytec" "" (by decide) (by decide) _

theorem arg_allowedAt (version : Nat) (n : UInt8) : (Line.arg n).AllowedAt version := by
  by_cases hn : n < 4
  · have hlt := UInt8.lt_iff_toNat_lt.mp hn
    exact allowedAt_of_plain _ (numbered_mem "arg_" (by simp [plainOpcodes]) hlt) (if_pos hn)
  · have htext : (Line.arg n).text = "arg " ++ toString n.toNat := if_neg hn
    refine allowedAt_of_starts "arg" (by simp [plainOpcodes]) ?_
    rw [htext]
    exact starts_blank "arg" "" (by decide) (by decide) _

def labelStems : List (List Char) :=
  ["if_".toList, "loo".toList, "inl".toList, "fun".toList, "end".toList]

theorem Label.exists_stem (l : Label) : ∃ stem ∈ labelStems, ∃ rest, l.text.toList = stem ++ rest := by
  cases l with
  | inBody mark path =>
    rw [Label.toList_text_inBody]
    cases mark with
    | ifFalse n | ifEnd n | condFalse n | condEnd n => exact ⟨"if_".toList, by decide, _, rfl⟩
    | loopStart n | loopEnd n => exact ⟨"loo".toList, by decide, _, rfl⟩
    | inlineEnd name => exact ⟨"inl".toList, by decide, _, rfl⟩
  | subroutine name =>
    rw [Label.toList_text_subroutine]
    exact ⟨"fun".toList, by decide, _, rfl⟩
  | subroutineEnd name =>
    rw [Label.toList_text_subroutineEnd]
    exact ⟨"end".toList, by decide, _, rfl⟩
  | programEnd => exact ⟨"end".toList, by decide, _, rfl⟩

/-- Whatever the names of functions are, no label is taken for an opcode that has a rule. -/
theorem label_allowedAt (version : Nat) (l : Label) : (Line.label l).AllowedAt version := by
  apply allowedAt_of_not_ruled
  intro hruled
  obtain ⟨stem, hstem, rest, htext⟩ := l.exists_stem
  have hstems : ∀ stem ∈ labelStems, stem.length = 3 ∧ ∀ c ∈ stem, (c != ' ') = true := by
    simp [labelStems]
  have hruled' : ∀ op ∈ ruledOpcodes, op.toList.take 3 ∉ labelStems := by decide +kernel
  have hline : (Line.label l).text.toList = stem ++ (rest ++ [':']) := by
    change (l.text ++ ":").toList = _
    rw [String.toList_append, htext, append_assoc]
    rfl
  have hword : ((Line.label l).word 0).toList = stem ++ (rest ++ [':']).takeWhile (· != ' ') := by
    rw [Line.word, String.toList_ofList, wordAt, hline, takeWhile_append_of_pos (hstems stem hstem).2]
  have htake : ((Line.label l).word 0).toList.take 3 = stem := by
    rw [hword]
    exact take_left' (hstems stem hstem).1
  exact hruled' _ hruled (htake ▸ hstem)

/-! ### Lines with rules -/

theorem no_blank_of_knows {table : Field.Table} {name : String} (h : table.Knows version name) :
    ' ' ∉ name.toList := by
  obtain ⟨f, hf, _⟩ := h
  have hname : f.name = name := by simpa using find?_some hf
  have hall : ∀ f ∈ table.fields, ' ' ∉ f.name.toList := by
    cases table <;> decide +kernel
  exact hname ▸ hall f (mem_of_find?_eq_some hf)

theorem no_blank_of_digits (n : Nat) : ' ' ∉ Nat.toDigits 10 n := by
  intro h
  cases isDigit_of_mem_toDigits h

namespace FieldOp

def name : FieldOp → String
  | .txn => "txn"
  | .txna _ => "txna"
  | .txnas => "txnas"
  | .gtxn _ => "gtxn"
  | .gtxna _ _ => "gtxna"
  | .gtxnas _ => "gtxnas"
  | .gtxns => "gtxns"
  | .gtxnsa _ => "gtxnsa"
  | .gtxnsas => "gtxnsas"
  | .global => "global"
  | .itxn => "itxn"
  | .itxna _ => "itxna"

def table : FieldOp → Field.Table
  | .global => .global
  | _ => .txn

def place : FieldOp → Nat
  | .gtxn _ | .gtxna _ _ | .gtxnas _ => 2
  | _ => 1

/-- The first version that has the opcode, where not all have it. -/
def since : FieldOp → Nat
  | .gtxns | .gtxnsa _ => 3
  | .txnas | .gtxnas _ | .gtxnsas | .itxn | .itxna _ => 5
  | _ => 0

def words (field : String) (op : FieldOp) : List String :=
  op.name :: match op with
    | .txn | .txnas | .gtxns | .gtxnsas | .global | .itxn => [field]
    | .txna j | .gtxnsa j | .itxna j => [field, toString j.toNat]
    | .gtxn i | .gtxnas i => [toString i.toNat, field]
    | .gtxna i j => [toString i.toNat, field, toString j.toNat]

theorem text_eq (field : String) (op : FieldOp) : op.text field = " ".intercalate (op.words field) := by
  have hopen : ∀ {opening word : String} (rest : String), opening = word ++ " " →
      opening ++ rest = word ++ (" " ++ rest) := by
    intro opening word rest h
    rw [h, String.append_assoc]
  cases op
  all_goals
    simp only [text, words, name, String.intercalate_cons_cons, String.intercalate_singleton,
      String.append_assoc]
    exact hopen _ (by decide)

theorem getElem?_words (field : String) (op : FieldOp) : (op.words field)[op.place]? = some field := by
  cases op <;> rfl

theorem no_blank_of_mem_words {field : String} (hfield : ' ' ∉ field.toList) (op : FieldOp) :
    ∀ w ∈ op.words field, ' ' ∉ w.toList := by
  cases op with
  | txn | txnas | gtxns | gtxnsas | global | itxn => simp [words, name, hfield]
  | _ => simp [words, name, hfield, no_blank_of_digits]

theorem find?_name (op : FieldOp) : Builtin.find? op.name = none := by
  cases op <;> rfl

theorem since_of_later {op : FieldOp} {since : Nat} (h : (op.name, since) ∈ laterOpcodes) :
    since = op.since := by
  cases op with
  | txn | txna | gtxn | gtxna | global => simp [laterOpcodes, name] at h
  | _ =>
    simp only [laterOpcodes, name, mem_cons, Prod.mk.injEq, String.reduceEq, false_and, true_and,
      false_or, or_false, not_mem_nil] at h
    exact h

theorem place_of_field {op : FieldOp} {table : Field.Table} {place : Nat}
    (h : (op.name, table, place) ∈ fieldOpcodes) : table = op.table ∧ place = op.place := by
  cases op <;> simpa [fieldOpcodes, name, FieldOp.table, FieldOp.place] using h

end FieldOp

/-- What a line needs of the version, by its kind. -/
def Line.Known (version : Nat) : Line → Prop
  | .builtin op immediates => Builtin.KnownIn version op immediates
  | .field op f => op.table.Knows version f.name ∧ op.since ≤ version
  | .call _ | .returnCall => 4 ≤ version
  | .args | .innerBegin | .innerSubmit => 5 ≤ version
  | .innerField f => Field.Table.txn.Knows version f.name ∧ 5 ≤ version
  | _ => True

theorem field_allowedAt {op : FieldOp} (h : (Line.field op f).Known version) :
    (Line.field op f).AllowedAt version := by
  obtain ⟨hknows, hsince⟩ := h
  have hblank := op.no_blank_of_mem_words (no_blank_of_knows hknows)
  have htext : (Line.field op f).text = " ".intercalate (op.words f.name) := op.text_eq f.name
  have hword : (Line.field op f).word 0 = op.name := by
    apply Starts.word
    rw [htext]
    exact starts_intercalate (hblank _ mem_cons_self) _
  refine ⟨?_, ?_, ?_⟩
  · intro b hb
    rw [hword, op.find?_name] at hb
    cases hb
  · intro since hlater
    rw [hword] at hlater
    rw [FieldOp.since_of_later hlater]
    exact hsince
  · intro table place hplace
    rw [hword] at hplace
    obtain ⟨rfl, rfl⟩ := FieldOp.place_of_field hplace
    rw [Line.word, htext, wordAt_intercalate (op.getElem?_words f.name)
      fun w hw => hblank w (mem_of_mem_take hw), String.ofList_toList]
    exact hknows

/-- The opcode of a call has no rule beyond the catalog, apart from one for the field that it reads. -/
theorem rules_of_callable {b : Builtin} (hb : b ∈ Builtin.catalog)
    (hcallable : b.callable = true ∨ b.name ∈ Builtin.fallbacks) :
    ' ' ∉ b.name.toList ∧ (∀ x ∈ laterOpcodes, x.1 ≠ b.name) ∧
      ∀ x ∈ fieldOpcodes, x.1 = b.name → .field x.2.1 ∈ b.args ∧ x.2.2 = 1 := by
  have hall : ∀ b ∈ Builtin.catalog, (b.callable = true ∨ b.name ∈ Builtin.fallbacks) →
      ' ' ∉ b.name.toList ∧ (∀ x ∈ laterOpcodes, x.1 ≠ b.name) ∧
        ∀ x ∈ fieldOpcodes, x.1 = b.name → .field x.2.1 ∈ b.args ∧ x.2.2 = 1 := by decide +kernel
  exact hall b hb hcallable

theorem builtin_allowedAt {immediates : List Builtin.Immediate}
    (h : (Line.builtin op immediates).Known version) : (Line.builtin op immediates).AllowedAt version := by
  obtain ⟨b, hfind, hcallable, hversion, hfield⟩ := h
  have hname : b.name = op := by simpa using find?_some hfind
  subst hname
  obtain ⟨hblank, hlater, hplaces⟩ :=
    rules_of_callable (Builtin.mem_catalog_of_find? hfind) hcallable
  have hword : (Line.builtin b.name immediates).word 0 = b.name :=
    Starts.word (starts_intercalate hblank _)
  refine ⟨?_, ?_, ?_⟩
  · intro b' hb'
    rw [hword, hfind] at hb'
    cases hb'
    exact hversion
  · intro since hmem
    rw [hword] at hmem
    exact absurd rfl (hlater _ hmem)
  · intro table place hmem
    rw [hword] at hmem
    obtain ⟨htable, hplace⟩ := hplaces _ hmem rfl
    dsimp only at htable hplace
    obtain ⟨name, rfl, hknows⟩ := hfield table htable
    have hwords : ∀ w ∈ [b.name, name], ' ' ∉ w.toList := by
      simp [hblank, no_blank_of_knows hknows]
    have hread : wordAt 1 (" ".intercalate [b.name, name]).toList = name.toList :=
      wordAt_intercalate rfl hwords
    have hfield : (Line.builtin b.name [.field name]).word 1 = name :=
      (congrArg String.ofList hread).trans String.ofList_toList
    rw [hplace, hfield]
    exact hknows

/-- Where an opcode is in the catalog and also among the later ones, both name the same version. -/
theorem minVersion_of_later {since : Nat} (h : (op, since) ∈ laterOpcodes) :
    (∀ b ∈ Builtin.catalog, b.name = op → b.minVersion = since) ∧
      ∀ other, (op, other) ∈ laterOpcodes → other = since := by
  have hall : ∀ x ∈ laterOpcodes, (∀ b ∈ Builtin.catalog, b.name = x.1 → b.minVersion = x.2) ∧
      ∀ y ∈ laterOpcodes, y.1 = x.1 → y.2 = x.2 := by decide +kernel
  obtain ⟨hcatalog, hlater⟩ := hall _ h
  exact ⟨hcatalog, fun other hother => hlater _ hother rfl⟩

theorem later_allowedAt (op : String) (since : Nat) (h : Starts line.text op)
    (hop : (op, since) ∈ laterOpcodes) (hsince : since ≤ version)
    (hfield : ∀ table place, (op, table, place) ∈ fieldOpcodes → table.Knows version (line.word place))
    : line.AllowedAt version := by
  obtain ⟨hcatalog, hlater⟩ := minVersion_of_later hop
  refine ⟨?_, ?_, ?_⟩
  · intro b hb
    rw [h.word] at hb
    have hname : b.name = op := by simpa using find?_some hb
    rw [hcatalog b (Builtin.mem_catalog_of_find? hb) hname]
    exact hsince
  · intro other hother
    rw [h.word] at hother
    rw [hlater other hother]
    exact hsince
  · intro table place hplace
    rw [h.word] at hplace
    exact hfield table place hplace

theorem fieldless_allowedAt (op : String) (since : Nat) (h : Starts line.text op)
    (hop : (op, since) ∈ laterOpcodes) (hplain : ∀ x ∈ fieldOpcodes, x.1 ≠ op)
    (hsince : since ≤ version) : line.AllowedAt version :=
  later_allowedAt op since h hop hsince fun _ _ hmem => absurd rfl (hplain _ hmem)

theorem innerField_allowedAt (h : (Line.innerField f).Known version) :
    (Line.innerField f).AllowedAt version := by
  obtain ⟨hknows, hversion⟩ := h
  have hwords : ∀ w ∈ ["itxn_field", f.name], ' ' ∉ w.toList := by
    simp [no_blank_of_knows hknows]
  have htext : (Line.innerField f).text = " ".intercalate ["itxn_field", f.name] := by
    rw [String.intercalate_cons_cons, String.intercalate_singleton]
    rfl
  have hread : wordAt 1 (" ".intercalate ["itxn_field", f.name]).toList = f.name.toList :=
    wordAt_intercalate rfl hwords
  have hstarts : Starts (Line.innerField f).text "itxn_field" := by
    rw [htext]
    exact starts_intercalate (by decide) _
  refine later_allowedAt "itxn_field" 5 hstarts (by decide) hversion ?_
  intro table place hplace
  obtain ⟨rfl, rfl⟩ : table = .txn ∧ place = 1 := by simpa [fieldOpcodes] using hplace
  rw [Line.word, htext, hread, String.ofList_toList]
  exact hknows

/-- What a line needs of the version is all that the rules ask. -/
theorem Line.Known.allowedAt (h : line.Known version) : line.AllowedAt version := by
  cases line with
  | version n =>
    exact allowedAt_of_starts "#pragma" (by simp [plainOpcodes])
      (starts_blank _ "version " (by decide) (by decide) _)
  | intBlock values =>
    exact allowedAt_of_starts "intcblock" (by simp [plainOpcodes])
      (starts_blank _ "" (by decide) (by decide) _)
  | byteBlock values =>
    exact allowedAt_of_starts "bytecblock" (by simp [plainOpcodes])
      (starts_blank _ "" (by decide) (by decide) _)
  | label l => exact label_allowedAt version l
  | literal ref => exact literal_allowedAt version ref
  | load slot =>
    exact allowedAt_of_starts "load" (by simp [plainOpcodes])
      (starts_blank _ "" (by decide) (by decide) _)
  | store slot =>
    exact allowedAt_of_starts "store" (by simp [plainOpcodes])
      (starts_blank _ "" (by decide) (by decide) _)
  | unary op => exact allowedAt_of_plain _ (unary_mem_plain op) rfl
  | binary op => exact allowedAt_of_plain _ (binary_mem_plain op) rfl
  | builtin op immediates => exact builtin_allowedAt h
  | field op f => exact field_allowedAt h
  | arg n => exact arg_allowedAt version n
  | args =>
    exact fieldless_allowedAt "args" 5 (starts_self (by decide)) (by decide) (by decide) h
  | pop => exact allowedAt_of_plain "pop" (by simp [plainOpcodes]) rfl
  | branch l =>
    exact allowedAt_of_starts "b" (by simp [plainOpcodes])
      (starts_blank _ "" (by decide) (by decide) _)
  | branchZero l =>
    exact allowedAt_of_starts "bz" (by simp [plainOpcodes])
      (starts_blank _ "" (by decide) (by decide) _)
  | call l =>
    exact fieldless_allowedAt "callsub" 4 (starts_blank _ "" (by decide) (by decide) _) (by decide)
      (by decide) h
  | returnCall =>
    exact fieldless_allowedAt "retsub" 4 (starts_self (by decide)) (by decide) (by decide) h
  | finish => exact allowedAt_of_plain "return" (by simp [plainOpcodes]) rfl
  | err => exact allowedAt_of_plain "err" (by simp [plainOpcodes]) rfl
  | innerBegin =>
    exact fieldless_allowedAt "itxn_begin" 5 (starts_self (by decide)) (by decide) (by decide) h
  | innerField f => exact innerField_allowedAt h
  | innerSubmit =>
    exact fieldless_allowedAt "itxn_submit" 5 (starts_self (by decide)) (by decide) (by decide) h

/-! ### Lines of a program -/

section Code

variable {p : Program}

variable {source : FieldSource} {f : Field}

theorem fieldOp_known (hknows : source.table.Knows p.version f.name)
    (hsince : source.since ≤ p.version) : (Line.field (fieldOp source) f).Known p.version := by
  cases source with
  | gtxn i => cases i <;> exact ⟨hknows, hsince⟩
  | txn | global | itxn => exact ⟨hknows, hsince⟩

theorem fieldAtOp_known {i : Index} {op : FieldOp} (hop : fieldAtOp f source i = .ok op)
    (hknows : source.table.Knows p.version f.name) (hsince : source.since ≤ p.version)
    (hcomputed : i.since 5 ≤ p.version) : (Line.field op f).Known p.version := by
  cases source with
  | txn => cases i <;> cases hop <;> exact ⟨hknows, hcomputed⟩
  | gtxn j =>
    cases j <;> cases i <;> cases hop
    · exact ⟨hknows, hsince⟩
    · exact ⟨hknows, hcomputed⟩
    · exact ⟨hknows, hsince⟩
    · exact ⟨hknows, hcomputed⟩
  | global => cases hop; exact ⟨hknows, hsince⟩
  | itxn => cases i <;> cases hop; exact ⟨hknows, hsince⟩

theorem operation_known {bound : Nat} {e : Expr} {operands : List Expr} {line : Line}
    (he : e.Resolved p bound) (heq : e.operation? = some (operands, line)) : line.Known p.version := by
  cases Expr.operation_of_eq heq with
  | unary | binary | arg => trivial
  | builtin =>
    cases he with
    | builtin _ hknown _ => exact hknown
  | field =>
    cases he with
    | field _ hknows hsince _ => exact fieldOp_known hknows hsince
  | fieldAt hop =>
    cases he with
    | fieldAt _ hknows hsince hcomputed _ _ _ _ => exact fieldAtOp_known hop hknows hsince hcomputed
  | args =>
    cases he with
    | arg hcomputed _ => exact hcomputed

/-- The version has what the lines of a program need. -/
theorem known_rule : Rule p (Line.Known p.version) where
  bare {line} h := by
    cases line with
    | version | intBlock | byteBlock | label | pop | branch | branchZero | finish | err => trivial
    | _ => cases h
  literal _ := trivial
  slot _ := ⟨trivial, trivial⟩
  operation := operation_known
  innerField hknows h := ⟨hknows, h⟩
  inner h := ⟨h, h⟩
  subroutine h := ⟨h, fun _ => h⟩

end Code

end Teal.Assembly

namespace Teal

open Assembly List

variable {version : Nat}

/-- What a program that is accepted for a version is emitted as. -/
theorem emit_known {ms : List Tree.SourceModule} {p : Program} {ds : List Diagnostic}
    (hbuilt : Program.ofModules ms version = (some p, ds)) (hds : ∀ d ∈ ds, d.isFatal = false)
    (htypes : ∀ d ∈ p.typeFaults, d.isFatal = false) :
    ∃ lines, p.emit = .ok lines ∧ lines.head? = some (.version version) ∧
      ∀ line ∈ lines, line.Known version := by
  have hp := sound_of_ofModules hbuilt hds htypes
  obtain ⟨lines, hlines, hcode⟩ := emit_code hp
  have hversion := Program.version_of_ofModules hbuilt
  have hknown := known_rule.program hp.toWellBuilt hcode
  rw [hversion] at hknown
  refine ⟨lines, hlines, ?_, hknown⟩
  cases hcode with
  | mk => rw [hversion]; rfl

/-- The program whose assembly a compilation yields. -/
theorem exists_program_of_compile {l : Loaded} {lines : List Line}
    (h : (l.compile version true).assembly = some lines) :
    (versionFaults version).any (·.isFatal) = false ∧
      ∃ p ds, Program.ofModules l.modules version = (some p, ds) ∧ (∀ d ∈ ds, d.isFatal = false) ∧
        (∀ d ∈ p.typeFaults, d.isFatal = false) ∧ p.emit = .ok lines := by
  unfold Loaded.compile at h
  dsimp only at h
  split at h
  · cases h
  next hloading =>
  split at h
  · cases h
  next p ds hprogram =>
  split at h
  · cases h
  split at h
  · cases h
  next hchecking =>
  rw [Bool.not_true, Bool.or_false, not_any_isFatal_iff] at hchecking
  rw [not_any_isFatal_iff] at hloading
  refine ⟨?_, p, ds, hprogram, ?_, ?_, ?_⟩
  · rw [any_eq_false]
    intro d hd
    rw [hloading d (mem_append_right _ hd)]
    exact Bool.false_ne_true
  · exact fun d hd => hchecking d (mem_append_left _ (mem_append_right _ hd))
  · exact fun d hd => hchecking d (mem_append_right _ hd)
  · dsimp only at h
    cases hemit : p.emit with
    | error fault =>
      rw [hemit] at h
      cases h
    | ok emitted =>
      rw [hemit] at h
      cases h
      rfl

theorem supported_of_versionFaults (h : (versionFaults version).any (·.isFatal) = false) :
    Options.minVersion ≤ version ∧ version ≤ Options.maxVersion := by
  unfold versionFaults at h
  split at h
  · next hsupported => simpa using hsupported
  · cases h

/-- What is built and checked for a version without a fatal report is emitted, and the version has all
that the lines need: their opcodes and the fields that they name. So it is for whatever is compiled, the
version being one of those that are supported. -/
theorem emit_allowedAt :
    (∀ (ms : List Tree.SourceModule) (version : Nat) (p : Program) (ds : List Diagnostic),
      Program.ofModules ms version = (some p, ds) → (∀ d ∈ ds, d.isFatal = false) →
      (∀ d ∈ p.typeFaults, d.isFatal = false) →
      ∃ lines, p.emit = .ok lines ∧ lines.head? = some (.version version) ∧
        ∀ line ∈ lines, line.AllowedAt version) ∧
    ∀ (l : Loaded) (version : Nat) (lines : List Line),
      (l.compile version true).assembly = some lines →
      Options.minVersion ≤ version ∧ version ≤ Options.maxVersion ∧
        lines.head? = some (.version version) ∧ ∀ line ∈ lines, line.AllowedAt version := by
  constructor
  · intro ms version p ds hbuilt hds htypes
    obtain ⟨lines, hlines, hhead, hknown⟩ := emit_known hbuilt hds htypes
    exact ⟨lines, hlines, hhead, fun line hline => (hknown line hline).allowedAt⟩
  · intro l version lines h
    obtain ⟨hsupported, p, ds, hbuilt, hds, htypes, hemit⟩ := exists_program_of_compile h
    obtain ⟨emitted, hlines, hhead, hknown⟩ := emit_known hbuilt hds htypes
    rw [hemit] at hlines
    cases hlines
    obtain ⟨hmin, hmax⟩ := supported_of_versionFaults hsupported
    exact ⟨hmin, hmax, hhead, fun line hline => (hknown line hline).allowedAt⟩

/-- The sample is emitted for version 5 with a line that version 3 does not have. -/
theorem emit_allowedAt_sample :
    Program.ofModules Sample.modules 5 = (some Sample.program, []) ∧
      Sample.program.typeFaults = [] ∧
      ∃ lines, Sample.program.emit = .ok lines ∧ (∀ line ∈ lines, line.AllowedAt 5) ∧
        ∃ line ∈ lines, ¬line.AllowedAt 3 := by
  obtain ⟨lines, hlines, _, hallowed⟩ := emit_allowedAt.1 Sample.modules 5 Sample.program []
    Sample.ofModules_modules (by simp) (by simp [Sample.typeFaults_program])
  have hcalls : (Sample.program.emit.toOption.getD []).contains (.call (.subroutine "total")) =
      true := by decide +kernel
  rw [hlines] at hcalls
  exact ⟨Sample.ofModules_modules, Sample.typeFaults_program, lines, hlines, hallowed, _,
    contains_iff_mem.mp hcalls, by decide +kernel⟩

end Teal
