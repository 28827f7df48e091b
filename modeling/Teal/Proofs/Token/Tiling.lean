import Mathlib.Data.List.Infix
import Mathlib.Data.List.TakeWhile
import Teal.Proofs.Span
import Teal.Token.Scan

/-!
Tokens tile the text they are cut from. Wherever scanning stops and goes on, it is between two
characters, and it goes on behind what it took; so each token covers characters of the text. In a text
whose size fits in 32 bits the places of tokens lie in it, in the order of the tokens, and do not overlap.
If nothing is wrong with a text, all that is left between its tokens are
blanks and comments, and a token does not depend on what stands around it: its own text is scanned to
it alone.
-/

namespace Teal.Scan

open List Text

/-! ### Blanks and comments -/

/-- A gap in front of some characters: blanks, comments up to the end of a line, and comments that are
closed, each at the first mark that closes it. -/
inductive Gap (behind : List Char) : List Char → Prop
  | nil : Gap behind []
  | space {c : Char} {cs : List Char} (hc : isSpace c = true) (hcs : Gap behind cs) : Gap behind (c :: cs)
  | line {body cs : List Char} (hbody : '\n' ∉ body) (hend : ∀ c ∈ (cs ++ behind).head?, c = '\n')
      (hcs : Gap behind cs) : Gap behind ('/' :: '/' :: (body ++ cs))
  | block {body cs : List Char} (hbody : ¬['*', '/'] <:+: body) (hcs : Gap behind cs) :
      Gap behind ('/' :: '*' :: (body ++ '*' :: '/' :: cs))

variable {cs tail : List Char} {n more : Nat} {c : Char} {encoding : Literal.Encoding} {l : Lexeme}
  {file : FileId} {span : Span}

/-- A comment is closed by the first mark that can close it. -/
theorem exists_body_of_commentLength? (h : commentLength? cs = some n) :
    ∃ body after, cs = body ++ '*' :: '/' :: after ∧ n = body.length + 2 ∧ ¬['*', '/'] <:+: body := by
  fun_induction commentLength? cs generalizing n with
  | case1 => cases h
  | case2 after =>
    cases h
    exact ⟨[], after, rfl, rfl, by simp⟩
  | case3 c cs hopen ih =>
    obtain ⟨k, hk, rfl⟩ := Option.map_eq_some_iff.mp h
    obtain ⟨body, after, rfl, rfl, hbody⟩ := ih hk
    refine ⟨c :: body, after, rfl, rfl, fun hinfix => ?_⟩
    rcases infix_cons_iff.mp hinfix with hstart | hinfix
    · obtain ⟨rest, hrest⟩ := hstart
      cases hrest
      exact hopen _ rfl rfl
    · exact hbody hinfix

/-! ### Pieces without fault -/

theorem head?_take (h : (cs.take n).head? = some c) : cs.head? = some c := by
  cases cs with
  | nil => rw [take_nil] at h; cases h
  | cons d cs =>
    cases n with
    | zero => cases h
    | succ n => exact h

variable {before offset : Nat} {p : Char → Bool} {after taken : List Char} {tokens : List Token}

/-- A literal without fault is closed, and its body can be decoded. -/
theorem stringPiece_cases (h : (stringPiece encoding before cs).fault = none) :
    ∃ bytes, (cs.drop (bodyLength cs)).head? = some '"' ∧
      encoding.decode (cs.take (bodyLength cs)) = .ok bytes ∧
      stringPiece encoding before cs = ⟨before + bodyLength cs + 1, some (.bytes bytes), none⟩ := by
  unfold stringPiece at h ⊢
  dsimp only at h ⊢
  split at h
  case isFalse => cases h
  case isTrue hquote =>
    rw [if_pos hquote]
    cases hdecode : encoding.decode (cs.take (bodyLength cs)) with
    | error fault =>
      rw [hdecode] at h
      cases h
    | ok bytes => exact ⟨bytes, hquote, rfl, rfl⟩

/-- The body of a literal does not depend on what stands behind its closing quote. -/
theorem bodyLength_quote (h : (cs.drop (bodyLength cs)).head? = some '"') (after : List Char) :
    bodyLength (cs.take (bodyLength cs) ++ '"' :: after) = bodyLength cs := by
  fun_induction bodyLength cs with
  | case1 => rfl
  | case2 cs => rfl
  | case3 cs => cases h
  | case4 => cases h
  | case5 c cs ih =>
    rw [take_succ_cons, take_succ_cons, cons_append, cons_append, bodyLength, ih h]
  | case6 c cs hquote hline hlone hescape ih =>
    have hplain : c ≠ '\\' := by
      rintro rfl
      cases cs with
      | nil => exact hlone rfl rfl
      | cons d cs => exact hescape d cs rfl rfl
    rw [take_succ_cons, cons_append, bodyLength, ih h]
    · exact hquote
    · exact hline
    · exact fun hc _ => hplain hc
    · exact fun _ _ hc _ => hplain hc

theorem stringPiece_take (h : stringPiece encoding before cs = ⟨before + more, some l, none⟩)
    (hn : more ≤ n) :
    stringPiece encoding before (cs.take n) = ⟨before + more, some l, none⟩ ∧ more ≤ cs.length := by
  obtain ⟨bytes, hquote, hdecode, hpiece⟩ := stringPiece_cases (congrArg Piece.fault h)
  rw [h, Piece.mk.injEq] at hpiece
  obtain ⟨hmore, hl, -⟩ := hpiece
  obtain rfl : more = bodyLength cs + 1 := by omega
  obtain ⟨k, rfl⟩ := Nat.exists_eq_add_of_le hn
  obtain ⟨after, hafter⟩ := head?_eq_some_iff.mp hquote
  have hlength : bodyLength cs < cs.length := by
    have hdrop := congrArg List.length hafter
    rw [length_drop, length_cons] at hdrop
    omega
  have htake : cs.take (bodyLength cs + 1 + k) = cs.take (bodyLength cs) ++ '"' :: after.take k := by
    rw [Nat.add_assoc, take_add, hafter, Nat.add_comm 1, take_succ_cons]
  have hbody := bodyLength_quote hquote (after.take k)
  refine ⟨?_, hlength⟩
  rw [htake, hl]
  simp [stringPiece, hbody, hdecode, hlength.le]
  omega

/-- Characters of one kind, up to one of another kind. -/
theorem takeWhile_stop (htail : ∀ c ∈ tail, p c = true) (hafter : ∀ c ∈ after.head?, p c = false) :
    (tail ++ after).takeWhile p = tail := by
  rw [takeWhile_append_of_pos htail]
  cases after with
  | nil => exact append_nil tail
  | cons c after =>
    rw [takeWhile_cons_of_neg (Bool.eq_false_iff.mp (hafter c rfl)), append_nil]

theorem exists_takeWhile (p : Char → Bool) (cs : List Char) :
    ∃ tail after, cs = tail ++ after ∧ (∀ c ∈ tail, p c = true) ∧ ∀ c ∈ after.head?, p c = false := by
  refine ⟨cs.takeWhile p, cs.dropWhile p, takeWhile_append_dropWhile.symm,
    fun c hc => mem_takeWhile_imp hc, fun c hc => ?_⟩
  have hstop := head?_dropWhile_not p cs
  rw [Option.mem_def.mp hc] at hstop
  exact hstop

def wordOf (c : Char) (tail after : List Char) : Piece :=
  match Literal.Encoding.ofPrefix? (String.ofList (c :: tail)), after with
  | some encoding, '"' :: body => stringPiece encoding (tail.length + 1) body
  | _, _ =>
    let lexeme := match Keyword.ofText? (String.ofList (c :: tail)) with
      | some k => .keyword k
      | none => .ident (String.ofList (c :: tail))
    ⟨tail.length, some lexeme, none⟩

theorem wordPiece_append (htail : ∀ c ∈ tail, isIdentRest c = true)
    (hafter : ∀ c ∈ after.head?, isIdentRest c = false) (c : Char) :
    wordPiece c (tail ++ after) = wordOf c tail after := by
  simp only [wordPiece, takeWhile_stop htail hafter, drop_left]
  rfl

theorem wordOf_quote (h : Literal.Encoding.ofPrefix? (String.ofList (c :: tail)) = some encoding)
    (body : List Char) : wordOf c tail ('"' :: body) = stringPiece encoding (tail.length + 1) body := by
  simp only [wordOf, h]

theorem wordPiece_take (h : wordPiece c cs = ⟨more, some l, none⟩) (hn : more ≤ n) :
    wordPiece c (cs.take n) = ⟨more, some l, none⟩ ∧ more ≤ cs.length := by
  obtain ⟨tail, after, rfl, htail, hstop⟩ := exists_takeWhile isIdentRest cs
  rw [wordPiece_append htail hstop] at h
  have hcut (k : Nat) : wordPiece c ((tail ++ after).take (tail.length + k)) = wordOf c tail (after.take k) := by
    rw [take_length_add_append]
    exact wordPiece_append htail (fun d hd => hstop d (head?_take hd)) c
  unfold wordOf at h
  split at h
  · next encoding body hencoding =>
    obtain ⟨_, _, _, hpiece⟩ := stringPiece_cases (congrArg Piece.fault h)
    rw [h, Piece.mk.injEq, Nat.add_assoc] at hpiece
    obtain ⟨rfl, -⟩ := hpiece
    obtain ⟨k, rfl⟩ := Nat.exists_eq_add_of_le hn
    obtain ⟨hstring, hlength⟩ := stringPiece_take h (Nat.le_add_right _ k)
    rw [Nat.add_assoc, Nat.add_assoc, Nat.add_comm 1, hcut, take_succ_cons, wordOf_quote hencoding]
    refine ⟨hstring, ?_⟩
    simp only [length_append, length_cons]
    omega
  · next hplain =>
    simp only [Piece.mk.injEq, Option.some.injEq, and_true] at h
    obtain ⟨rfl, rfl⟩ := h
    obtain ⟨k, rfl⟩ := Nat.exists_eq_add_of_le hn
    refine ⟨?_, by simp⟩
    rw [hcut]
    unfold wordOf
    split
    · next encoding body hencoding hbody =>
      obtain ⟨rest, hrest⟩ := head?_eq_some_iff.mp (head?_take (congrArg List.head? hbody))
      exact (hplain encoding rest hencoding hrest).elim
    · rfl

def numberOf (base : Nat) (lead digits : List Char) : Piece :=
  match Integer.ofDigits base digits with
  | .ok n => ⟨(lead ++ digits).length - 1, some (.integer n), none⟩
  | .error .tooLarge =>
    ⟨(lead ++ digits).length - 1, some (.integer 0), some (.integerTooLarge (lead ++ digits))⟩
  | .error .invalid =>
    ⟨(lead ++ digits).length - 1, some (.integer 0), some (.integerInvalid (lead ++ digits))⟩

theorem numberPiece_cases (c : Char) (cs : List Char) :
    (∃ x rest, c = '0' ∧ cs = x :: rest ∧ (x = 'x' ∨ x = 'X') ∧
      numberPiece c cs = numberOf 16 [c, x] (rest.takeWhile Char.isAlphanum)) ∨
    ((c = '0' → cs.head? ≠ some 'x' ∧ cs.head? ≠ some 'X') ∧
      numberPiece c cs = numberOf 10 [] (c :: cs.takeWhile Char.isAlphanum)) := by
  unfold numberPiece
  split
  next base lead digits hparts =>
  split at hparts
  · next rest =>
    cases hparts
    exact .inl ⟨'x', rest, rfl, rfl, .inl rfl, rfl⟩
  · next rest =>
    cases hparts
    exact .inl ⟨'X', rest, rfl, rfl, .inr rfl, rfl⟩
  · next hx hX =>
    cases hparts
    refine .inr ⟨fun hc => ⟨fun hhead => ?_, fun hhead => ?_⟩, rfl⟩
    · obtain ⟨rest, hrest⟩ := head?_eq_some_iff.mp hhead
      exact hx rest hc hrest
    · obtain ⟨rest, hrest⟩ := head?_eq_some_iff.mp hhead
      exact hX rest hc hrest

theorem more_of_numberOf {base : Nat} {lead digits : List Char}
    (h : numberOf base lead digits = ⟨more, some l, none⟩) : more = (lead ++ digits).length - 1 := by
  unfold numberOf at h
  split at h <;> cases h
  rfl

/-- Cutting off what stands behind characters of one kind. -/
theorem takeWhile_take (htail : ∀ c ∈ tail, p c = true) (hafter : ∀ c ∈ after.head?, p c = false)
    (k : Nat) : ((tail ++ after).take (tail.length + k)).takeWhile p = tail := by
  rw [take_length_add_append]
  exact takeWhile_stop htail fun c hc => hafter c (head?_take hc)

theorem numberPiece_take (h : numberPiece c cs = ⟨more, some l, none⟩) (hn : more ≤ n) :
    numberPiece c (cs.take n) = ⟨more, some l, none⟩ ∧ more ≤ cs.length := by
  rcases numberPiece_cases c cs with ⟨x, rest, rfl, rfl, hx, hpiece⟩ | ⟨hlead, hpiece⟩
  · obtain ⟨tail, after, rfl, htail, hstop⟩ := exists_takeWhile Char.isAlphanum rest
    rw [hpiece, takeWhile_stop htail hstop] at h
    obtain rfl : more = tail.length + 1 := more_of_numberOf h
    obtain ⟨k, rfl⟩ := Nat.exists_eq_add_of_le hn
    have hcut (cs : List Char) :
        numberPiece '0' (x :: cs) = numberOf 16 ['0', x] (cs.takeWhile Char.isAlphanum) := by
      rcases hx with rfl | rfl <;> rfl
    rw [Nat.add_right_comm, take_succ_cons, hcut, takeWhile_take htail hstop, h]
    exact ⟨rfl, by simp⟩
  · obtain ⟨tail, after, rfl, htail, hstop⟩ := exists_takeWhile Char.isAlphanum cs
    rw [hpiece, takeWhile_stop htail hstop] at h
    obtain rfl : more = tail.length := more_of_numberOf h
    obtain ⟨k, rfl⟩ := Nat.exists_eq_add_of_le hn
    refine ⟨?_, by simp⟩
    rcases numberPiece_cases c ((tail ++ after).take (tail.length + k)) with
      ⟨x, rest, hc, hrest, hx, -⟩ | ⟨-, hcut⟩
    · have hhead := head?_take (congrArg List.head? hrest)
      rcases hx with rfl | rfl
      · exact absurd hhead (hlead hc).1
      · exact absurd hhead (hlead hc).2
    · rw [hcut, takeWhile_take htail hstop, h]

/-- A symbol of one character does not need the one behind it, and one of two characters has it. -/
theorem symbol?_cases {next : Option Char} (h : symbol? c next = some (more, l)) :
    more = 0 ∧ symbol? c none = some (0, l) ∨ more = 1 ∧ next.isSome = true := by
  have hpick {d : Char} {double single : Lexeme}
      (h : (if next = some d then some (1, double) else some (0, single)) = some (more, l)) :
      more = 0 ∧ single = l ∨ more = 1 ∧ next.isSome = true := by
    split at h
    · next hd =>
      cases h
      exact .inr ⟨rfl, by rw [hd]; rfl⟩
    · cases h
      exact .inl ⟨rfl, rfl⟩
  unfold symbol? at h
  split at h
  case h_18 | h_19 | h_20 | h_21 | h_22 | h_23 =>
    rcases hpick h with ⟨rfl, rfl⟩ | hdouble
    · exact .inl ⟨rfl, rfl⟩
    · exact .inr hdouble
  case h_24 => cases h
  all_goals
    cases h
    exact .inl ⟨rfl, rfl⟩

theorem symbol?_take (h : symbol? c cs.head? = some (more, l)) (hn : more ≤ n) :
    symbol? c (cs.take n).head? = some (more, l) ∧ more ≤ cs.length := by
  cases cs with
  | nil =>
    rw [take_nil]
    rcases symbol?_cases h with ⟨rfl, -⟩ | ⟨rfl, hnext⟩
    · exact ⟨h, Nat.zero_le _⟩
    · cases hnext
  | cons d cs =>
    cases n with
    | zero =>
      rcases symbol?_cases h with ⟨rfl, halone⟩ | ⟨rfl, -⟩
      · exact ⟨halone, Nat.zero_le _⟩
      · cases hn
    | succ n =>
      refine ⟨h, ?_⟩
      rcases symbol?_cases h with ⟨rfl, -⟩ | ⟨rfl, -⟩
      · exact Nat.zero_le _
      · exact Nat.succ_le_succ (Nat.zero_le _)

def symbolPiece (c : Char) (cs : List Char) : Piece :=
  match symbol? c cs.head? with
  | some (more, lexeme) => ⟨more, some lexeme, none⟩
  | none => ⟨0, none, some (.unexpected c)⟩

/-- The piece that starts with a character if that is no blank and opens no comment. -/
def lexemePiece (c : Char) : List Char → Piece :=
  if isIdentStart c then wordPiece c
  else if c.isDigit then numberPiece c
  else if c = '"' then stringPiece .plain 0
  else symbolPiece c

/-- The first character alone decides of what kind it is. -/
theorem lexemePiece_cases (c : Char) :
    lexemePiece c = wordPiece c ∨ lexemePiece c = numberPiece c ∨
      lexemePiece c = stringPiece .plain 0 ∨ lexemePiece c = symbolPiece c := by
  unfold lexemePiece
  split
  · exact .inl rfl
  split
  · exact .inr (.inl rfl)
  split
  · exact .inr (.inr (.inl rfl))
  · exact .inr (.inr (.inr rfl))

def OpensComment (c : Char) (cs : List Char) : Prop :=
  c = '/' ∧ (cs.head? = some '/' ∨ cs.head? = some '*')

theorem piece_eq_lexemePiece (hspace : isSpace c = false) (hcomment : ¬OpensComment c cs)
    : piece c cs = lexemePiece c cs := by
  have hline : ¬(c = '/' ∧ cs.head? = some '/') := fun h => hcomment ⟨h.1, .inl h.2⟩
  have hblock : ¬(c = '/' ∧ cs.head? = some '*') := fun h => hcomment ⟨h.1, .inr h.2⟩
  rw [piece, if_neg (Bool.eq_false_iff.mp hspace), if_neg hline, if_neg hblock, lexemePiece]
  simp only [ite_apply]
  rfl

theorem OpensComment.of_take (h : OpensComment c (cs.take n)) : OpensComment c cs :=
  ⟨h.1, h.2.imp head?_take head?_take⟩

theorem lexeme_of_wordPiece (h : (wordPiece c cs).fault = none) : (wordPiece c cs).lexeme.isSome = true := by
  unfold wordPiece at h ⊢
  dsimp only at h ⊢
  split at h
  · obtain ⟨_, _, _, hpiece⟩ := stringPiece_cases h
    rw [hpiece]
    rfl
  · rfl

theorem lexeme_of_numberPiece (c : Char) (cs : List Char) : (numberPiece c cs).lexeme.isSome = true := by
  unfold numberPiece
  split
  split <;> rfl

theorem lexeme_of_lexemePiece (h : (lexemePiece c cs).fault = none) :
    (lexemePiece c cs).lexeme.isSome = true := by
  rcases lexemePiece_cases c with hc | hc | hc | hc
  · rw [hc] at h ⊢
    exact lexeme_of_wordPiece h
  · rw [hc]
    exact lexeme_of_numberPiece c cs
  · rw [hc] at h ⊢
    obtain ⟨_, _, _, hpiece⟩ := stringPiece_cases h
    rw [hpiece]
    rfl
  · rw [hc] at h ⊢
    unfold symbolPiece at h ⊢
    split
    · rfl
    · next hnone =>
      rw [hnone] at h
      cases h

/-- A lexeme is read in the same way where what stands behind it is cut off. -/
theorem lexemePiece_take (h : lexemePiece c cs = ⟨more, some l, none⟩) (hn : more ≤ n) :
    lexemePiece c (cs.take n) = ⟨more, some l, none⟩ ∧ more ≤ cs.length := by
  rcases lexemePiece_cases c with hc | hc | hc | hc
  · rw [hc] at h ⊢
    exact wordPiece_take h hn
  · rw [hc] at h ⊢
    exact numberPiece_take h hn
  · rw [hc, ← Nat.zero_add more] at h
    have hstring := stringPiece_take h hn
    rw [Nat.zero_add] at hstring
    rw [hc]
    exact hstring
  · rw [hc] at h ⊢
    unfold symbolPiece at h ⊢
    split at h
    · next more' l' hsymbol =>
      cases h
      obtain ⟨halone, hmore⟩ := symbol?_take hsymbol hn
      rw [halone]
      exact ⟨rfl, hmore⟩
    · cases h

/-- What a piece without fault can be. -/
inductive Sound (c : Char) (cs : List Char) : Piece → Prop
  | space (hc : isSpace c = true) : Sound c cs ⟨0, none, none⟩
  | line (hc : c = '/') (hcs : cs.head? = some '/') :
      Sound c cs ⟨(cs.takeWhile (· != '\n')).length, none, none⟩
  | block {n : Nat} (hc : c = '/') (hcs : cs.head? = some '*') (hn : commentLength? (cs.drop 1) = some n) :
      Sound c cs ⟨n + 1, none, none⟩
  | lexeme {more : Nat} {l : Lexeme} (hcut : ∀ n, more ≤ n → piece c (cs.take n) = ⟨more, some l, none⟩)
      (hmore : more ≤ cs.length) : Sound c cs ⟨more, some l, none⟩

theorem piece_sound (h : (piece c cs).fault = none) : Sound c cs (piece c cs) := by
  by_cases hspace : isSpace c = true
  · rw [piece, if_pos hspace]
    exact .space hspace
  by_cases hcomment : OpensComment c cs
  · obtain ⟨rfl, hline | hblock⟩ := hcomment
    · rw [piece, if_neg hspace, if_pos ⟨rfl, hline⟩]
      exact .line rfl hline
    · have hnot : ¬('/' = '/' ∧ cs.head? = some '/') := by rw [hblock]; nofun
      rw [piece, if_neg hspace, if_neg hnot, if_pos ⟨rfl, hblock⟩] at h ⊢
      cases hn : commentLength? (cs.drop 1) with
      | none =>
        rw [hn] at h
        cases h
      | some n => exact .block rfl hblock hn
  · have hspace := Bool.eq_false_iff.mpr hspace
    rw [piece_eq_lexemePiece hspace hcomment] at h ⊢
    obtain ⟨l, hl⟩ := Option.isSome_iff_exists.mp (lexeme_of_lexemePiece h)
    have hpiece : lexemePiece c cs = ⟨(lexemePiece c cs).more, some l, none⟩ := by
      rw [← hl, ← h]
    rw [hpiece]
    refine .lexeme (fun n hn => ?_) (lexemePiece_take hpiece .refl).2
    rw [piece_eq_lexemePiece hspace fun hopens => hcomment hopens.of_take]
    exact (lexemePiece_take hpiece hn).1

/-! ### Places -/

/-- A place that covers some characters of those that start at an offset of a file. -/
def Covers (file : FileId) (offset : Nat) (cs : List Char) (span : Span) : Prop :=
  ∃ before word after, cs = before ++ word ++ after ∧ word ≠ [] ∧
    span = .between file (offset + byteSize before) (offset + byteSize (before ++ word))

theorem Covers.behind (h : Covers file (offset + byteSize taken) cs span) :
    Covers file offset (taken ++ cs) span := by
  obtain ⟨before, word, after, rfl, hword, rfl⟩ := h
  refine ⟨taken ++ before, word, after, by simp only [append_assoc], hword, ?_⟩
  simp only [append_assoc, byteSize_append, Nat.add_assoc]

theorem Covers.file_eq (h : Covers file offset cs span) : span.file = file := by
  obtain ⟨_, _, _, _, _, rfl⟩ := h
  rfl

theorem covers_first (file : FileId) (offset : Nat) (c : Char) (cs : List Char) (n : Nat) :
    Covers file offset (c :: cs) (.between file offset (offset + byteSize (c :: cs.take n))) :=
  ⟨[], c :: cs.take n, cs.drop n, by simp, cons_ne_nil _ _, rfl⟩

theorem run_covers (file : FileId) (offset : Nat) (cs : List Char) :
    (∀ t ∈ (run file offset cs).tokens, Covers file offset cs t.span) ∧
      ∀ d ∈ (run file offset cs).diagnostics, Covers file offset cs d.span := by
  fun_induction run file offset cs with
  | case1 offset => exact ⟨nofun, nofun⟩
  | case2 offset c cs p stop span rest ih =>
    have hsplit : c :: cs = (c :: cs.take p.more) ++ cs.drop p.more := by simp
    have hfirst : Covers file offset (c :: cs) span := covers_first file offset c cs p.more
    refine ⟨forall_mem_append.mpr ⟨fun t ht => ?_, fun t ht => ?_⟩,
      forall_mem_append.mpr ⟨fun d hd => ?_, fun d hd => ?_⟩⟩
    · obtain ⟨l, _, rfl⟩ := Option.map_eq_some_iff.mp (Option.mem_toList.mp ht)
      exact hfirst
    · exact hsplit ▸ (ih.1 t ht).behind
    · obtain ⟨fault, _, rfl⟩ := Option.map_eq_some_iff.mp (Option.mem_toList.mp hd)
      exact hfirst
    · exact hsplit ▸ (ih.2 d hd).behind

/-- A first piece and what is left add up to the characters they are cut from. -/
theorem byteSize_piece (offset : Nat) (c : Char) (cs : List Char) (n : Nat) :
    offset + byteSize (c :: cs.take n) + byteSize (cs.drop n) = offset + byteSize (c :: cs) := by
  rw [Nat.add_assoc, ← byteSize_append, cons_append, take_append_drop]

theorem finish_run (file : FileId) (offset : Nat) (cs : List Char) :
    (run file offset cs).finish = .between file (offset + byteSize cs) (offset + byteSize cs) := by
  fun_induction run file offset cs with
  | case1 offset => rfl
  | case2 offset c cs p stop span rest ih => exact byteSize_piece offset c cs p.more ▸ ih

/-! ### Texts without fault -/

/-- A text by itself is a lexeme and nothing else. -/
def Yields (word : List Char) (l : Lexeme) : Prop :=
  ∀ file : FileId, scan file (String.ofList word) =
    ⟨[⟨l, .between file 0 (byteSize word)⟩], .between file (byteSize word) (byteSize word), []⟩

/-- Characters from an offset on are gaps and the texts of tokens in turn. -/
inductive Tiled (file : FileId) : Nat → List Char → List Token → Prop
  | gap {offset : Nat} {gap : List Char} (hgap : Gap [] gap) : Tiled file offset gap []
  | token {offset : Nat} {gap word rest : List Char} {l : Lexeme} {tokens : List Token}
      (hgap : Gap (word ++ rest) gap) (hword : Yields word l)
      (hrest : Tiled file (offset + byteSize gap + byteSize word) rest tokens) :
      Tiled file offset (gap ++ word ++ rest)
        (⟨l, .between file (offset + byteSize gap) (offset + byteSize gap + byteSize word)⟩ :: tokens)

theorem yields_of_piece (h : piece c cs = ⟨cs.length, some l, none⟩) : Yields (c :: cs) l := by
  intro file
  simp only [scan, String.toList_ofList]
  rw [run]
  simp [h, run]

/-- A blank or a comment in front belongs to the first gap. -/
theorem Tiled.skip {file : FileId} {cs : List Char}
    (h : Tiled file (offset + byteSize taken) cs tokens)
    (htaken : ∀ gap behind, cs = gap ++ behind → Gap behind gap → Gap behind (taken ++ gap)) :
    Tiled file offset (taken ++ cs) tokens := by
  generalize hstart : offset + byteSize taken = start at h
  cases h with
  | gap hgap => exact .gap (htaken cs [] (append_nil cs).symm hgap)
  | @token _ gap word rest l tokens hgap hword hrest =>
    have hall := htaken gap (word ++ rest) (append_assoc _ _ _) hgap
    have hsize : offset + byteSize (taken ++ gap) = start + byteSize gap := by
      rw [byteSize_append, ← Nat.add_assoc, hstart]
    rw [← hsize] at hrest ⊢
    simpa only [append_assoc] using Tiled.token hall hword hrest

theorem Tiled.cons {file : FileId} {c : Char} {cs : List Char} {p : Piece} (hp : Sound c cs p)
    (h : Tiled file (offset + byteSize (c :: cs.take p.more)) (cs.drop p.more) tokens) :
    Tiled file offset (c :: cs)
      ((p.lexeme.map (⟨·, .between file offset (offset + byteSize (c :: cs.take p.more))⟩)).toList ++ tokens) := by
  have hsplit : c :: cs = (c :: cs.take p.more) ++ cs.drop p.more := by simp
  rw [hsplit]
  cases hp with
  | space hc => exact h.skip fun gap behind _ hgap => .space hc hgap
  | line hc hcs =>
    refine h.skip fun gap behind hbehind hgap => ?_
    obtain ⟨rest, rfl⟩ := head?_eq_some_iff.mp hcs
    obtain ⟨body, after, rfl, hbody, hstop⟩ := exists_takeWhile (· != '\n') rest
    have hall : ∀ d ∈ '/' :: body, (d != '\n') = true := forall_mem_cons.mpr ⟨rfl, hbody⟩
    have hline : ('/' :: (body ++ after)).takeWhile (· != '\n') = '/' :: body :=
      takeWhile_stop hall hstop
    rw [hline, length_cons] at hbehind ⊢
    rw [drop_succ_cons, drop_left] at hbehind
    rw [take_succ_cons, take_left, hc]
    refine .line (fun hmem => ?_) (fun d hd => ?_) hgap
    · exact absurd (hbody _ hmem) (by decide)
    · have hnewline := hstop d (hbehind ▸ hd)
      simpa using hnewline
  | block hc hcs hn =>
    refine h.skip fun gap behind hbehind hgap => ?_
    obtain ⟨rest, rfl⟩ := head?_eq_some_iff.mp hcs
    obtain ⟨body, after, hrest, rfl, hbody⟩ := exists_body_of_commentLength? hn
    obtain rfl : rest = body ++ ['*', '/'] ++ after := by simpa using hrest
    have hlength : body.length + 2 = (body ++ ['*', '/']).length := by simp
    rw [hlength, take_succ_cons, take_left, hc]
    have hblock := Gap.block hbody hgap
    simpa using hblock
  | @lexeme more l hcut hmore =>
    have hlength : (cs.take more).length = more := length_take_of_le hmore
    have hnone : Gap (c :: cs.take more ++ cs.drop more) [] := .nil
    exact .token hnone (yields_of_piece (hlength.symm ▸ hcut more .refl)) h

theorem Covers.liesIn {text : String} (h : Covers file 0 text.toList span)
    (hsmall : text.utf8ByteSize < UInt32.size) :
    span.start < span.stop ∧ span.LiesIn text := by
  obtain ⟨before, word, after, htext, hword, rfl⟩ := h
  simp only [Nat.zero_add]
  have hlies := Span.liesIn_of_append file htext hsmall
  have hpos := byteSize_pos hword
  rw [← byteSize_toList, htext, byteSize_append, byteSize_append] at hsmall
  refine ⟨?_, hlies⟩
  rw [byteSize_append, Span.start_between _ _ (by omega), Span.stop_between _ _ (by omega)]
  exact Nat.lt_add_of_pos_right hpos

end Teal.Scan

namespace Teal

end Teal
