import Teal.Assembly

/-! A label can be read back from its text. The text of a label inside of a body is a stem, which ends
in a letter, and then the *trail*: the number of the node, if it has one, and the numbers of the calls
around it, each behind an underscore. So the trail is the longest end of the text that consists of
digits and underscores, whatever the names of functions are. -/

namespace Teal.Assembly

open List

def trailText (trail : List Nat) : List Char := trail.flatMap fun n => '_' :: Nat.toDigits 10 n

theorem trailText_cons (n : Nat) (trail : List Nat) :
    trailText (n :: trail) = '_' :: (Nat.toDigits 10 n ++ trailText trail) := rfl

theorem trailText_append (trail trail' : List Nat) :
    trailText (trail ++ trail') = trailText trail ++ trailText trail' :=
  flatMap_append

def isTrail (c : Char) : Bool := c.isDigit || c == '_'

variable {c : Char} {trail trail' path : List Nat} {p : Char → Bool} {mark : Mark} {l : Label}
  {name name' : String}

theorem isDigit_of_mem_toDigits {n : Nat} (h : c ∈ Nat.toDigits 10 n) : c.isDigit = true :=
  Nat.isDigit_of_mem_toDigits (by decide) (by decide) h

theorem isTrail_of_mem_trailText (h : c ∈ trailText trail) : isTrail c = true := by
  obtain ⟨n, _, hc⟩ := mem_flatMap.mp h
  rcases mem_cons.mp hc with rfl | hc
  · rfl
  · rw [isTrail, isDigit_of_mem_toDigits hc, Bool.true_or]

theorem takeWhile_append_stop {l l' : List Char} (hl : ∀ c ∈ l, p c = true)
    (hl' : ∀ c ∈ l'.head?, p c = false) : (l ++ l').takeWhile p = l := by
  induction l with
  | nil =>
    cases l' with
    | nil => rfl
    | cons c rest => simp [hl' c rfl]
  | cons c rest ih =>
    have hrest := ih fun x hx => hl x (mem_cons_of_mem _ hx)
    simp [hl c mem_cons_self, hrest]

theorem append_inj_of_stop {a a' b b' : List Char} (ha : ∀ c ∈ a, p c = true)
    (ha' : ∀ c ∈ a', p c = true) (hb : ∀ c ∈ b.head?, p c = false) (hb' : ∀ c ∈ b'.head?, p c = false)
    (h : a ++ b = a' ++ b') : a = a' ∧ b = b' := by
  have heq : a = a' := by
    rw [← takeWhile_append_stop ha hb, h, takeWhile_append_stop ha' hb']
  subst heq
  exact ⟨rfl, append_cancel_left h⟩

theorem head?_trailText (trail : List Nat) : ∀ c ∈ (trailText trail).head?, c.isDigit = false := by
  cases trail with
  | nil => simp [trailText]
  | cons n rest =>
    intro c hc
    rw [trailText_cons, head?_cons, Option.mem_def, Option.some.injEq] at hc
    rw [← hc]
    rfl

theorem trailText_inj (h : trailText trail = trailText trail') : trail = trail' := by
  induction trail generalizing trail' with
  | nil =>
    cases trail' with
    | nil => rfl
    | cons m rest' =>
      rw [trailText_cons] at h
      cases h
  | cons n rest ih =>
    cases trail' with
    | nil =>
      rw [trailText_cons] at h
      cases h
    | cons m rest' =>
      rw [trailText_cons, trailText_cons, List.cons.injEq] at h
      obtain ⟨hdigits, hrest⟩ := append_inj_of_stop (fun c hc => isDigit_of_mem_toDigits hc)
        (fun c hc => isDigit_of_mem_toDigits hc) (head?_trailText rest) (head?_trailText rest') h.2
      have hnm : n = m := by
        have hvalue := congrArg (fun ds => Nat.ofDigitChars 10 ds 0) hdigits
        simpa using hvalue
      rw [hnm, ih hrest]

/-- Stem and trail of a text can be told apart if the stem does not end like a trail. -/
theorem stem_trail_inj {stem stem' : List Char} (hstem : ∀ c ∈ stem.getLast?, isTrail c = false)
    (hstem' : ∀ c ∈ stem'.getLast?, isTrail c = false)
    (h : stem ++ trailText trail = stem' ++ trailText trail') : stem = stem' ∧ trail = trail' := by
  have hreverse : (trailText trail).reverse ++ stem.reverse =
      (trailText trail').reverse ++ stem'.reverse := by
    rw [← reverse_append, ← reverse_append, h]
  have hmem : ∀ (t : List Nat), ∀ c ∈ (trailText t).reverse, isTrail c = true :=
    fun t c hc => isTrail_of_mem_trailText (mem_reverse.mp hc)
  rw [← head?_reverse] at hstem hstem'
  obtain ⟨htrail, hstems⟩ := append_inj_of_stop (hmem trail) (hmem trail') hstem hstem' hreverse
  exact ⟨reverse_inj.mp hstems, trailText_inj (reverse_inj.mp htrail)⟩

/-! ### Labels inside of bodies -/

/-- The part of a mark's text before the numbers. -/
def Mark.stem : Mark → List Char
  | .ifFalse _ => "if_false".toList
  | .ifEnd _ => "if_end".toList
  | .condFalse _ => "if_expr_false".toList
  | .condEnd _ => "if_expr_end".toList
  | .loopStart _ => "loop_start".toList
  | .loopEnd _ => "loop_end".toList
  | .inlineEnd name => "inline_".toList ++ name.toList ++ "_end".toList

def Mark.numbers : Mark → List Nat
  | .ifFalse n | .ifEnd n | .condFalse n | .condEnd n | .loopStart n | .loopEnd n => [n]
  | .inlineEnd _ => []

theorem toList_toString (n : Nat) : (toString n).toList = Nat.toDigits 10 n := by
  rw [Nat.toString_eq_repr, Nat.toList_repr]

theorem toString_string (s : String) : toString s = s := rfl

theorem toList_numbered (stem text : String) (h : text.toList = stem.toList ++ ['_']) (n : Nat) :
    (toString text ++ toString n).toList = stem.toList ++ trailText [n] := by
  rw [toString_string, String.toList_append, toList_toString, h, trailText_cons, trailText, flatMap_nil,
    append_nil, append_assoc, singleton_append]

theorem toList_pathText (path : List Nat) : (pathText path).toList = trailText path := by
  rw [pathText, String.toList_join, flatMap_map, trailText]
  have hnumber : (fun n : Nat => (s!"_{n}").toList) = fun n => '_' :: Nat.toDigits 10 n := by
    funext n
    rw [toList_numbered "" "_" rfl n]
    simp [trailText]
  exact congrArg path.flatMap hnumber

theorem Mark.toList_text (mark : Mark) : mark.text.toList = mark.stem ++ trailText mark.numbers := by
  cases mark with
  | ifFalse n => exact toList_numbered "if_false" "if_false_" (by decide) n
  | ifEnd n => exact toList_numbered "if_end" "if_end_" (by decide) n
  | condFalse n => exact toList_numbered "if_expr_false" "if_expr_false_" (by decide) n
  | condEnd n => exact toList_numbered "if_expr_end" "if_expr_end_" (by decide) n
  | loopStart n => exact toList_numbered "loop_start" "loop_start_" (by decide) n
  | loopEnd n => exact toList_numbered "loop_end" "loop_end_" (by decide) n
  | inlineEnd name =>
    have htext : ("inline_" ++ name ++ "_end").toList =
        "inline_".toList ++ name.toList ++ "_end".toList := by
      simp only [String.toList_append]
    exact htext.trans (append_nil _).symm

/-- The stems that are followed by a number, and what they mark. -/
def numberedStems : List (List Char × (Nat → Mark)) :=
  [("if_false".toList, .ifFalse), ("if_end".toList, .ifEnd), ("if_expr_false".toList, .condFalse),
    ("if_expr_end".toList, .condEnd), ("loop_start".toList, .loopStart),
    ("loop_end".toList, .loopEnd)]

/-- Read a mark back from its stem and a trail, with what is left of the trail. -/
def readMark (stem : List Char) (trail : List Nat) : Option (Mark × List Nat) :=
  match numberedStems.find? (·.1 == stem), trail with
  | some (_, mark), n :: rest => some (mark n, rest)
  | some _, [] => none
  | none, trail =>
    let name := ((stem.drop "inline_".length).reverse.drop "_end".length).reverse
    some (.inlineEnd (String.ofList name), trail)

theorem Mark.stem_inlineEnd (name : String) :
    (Mark.inlineEnd name).stem = "inline_".toList ++ name.toList ++ "_end".toList := rfl

theorem readMark_stem (mark : Mark) (path : List Nat) :
    readMark mark.stem (mark.numbers ++ path) = some (mark, path) := by
  cases mark with
  | ifFalse n | ifEnd n | condFalse n | condEnd n | loopStart n | loopEnd n => rfl
  | inlineEnd name =>
    have hfind : numberedStems.find? (·.1 == (Mark.inlineEnd name).stem) = none := by
      rw [find?_eq_none]
      intro x hx heq
      have hother : ∀ x ∈ numberedStems, x.1.take 2 ≠ ['i', 'n'] := by decide
      apply hother x hx
      rw [beq_iff_eq.mp heq]
      rfl
    have hname : (((Mark.inlineEnd name).stem.drop "inline_".length).reverse.drop
        "_end".length).reverse = name.toList := by
      have hdrop : (Mark.inlineEnd name).stem.drop "inline_".length =
          name.toList ++ "_end".toList := by
        rw [Mark.stem_inlineEnd, append_assoc]
        rfl
      rw [hdrop, reverse_append]
      exact reverse_reverse _
    unfold readMark
    rw [hfind]
    simp only [hname, String.ofList_toList, Mark.numbers, nil_append]

theorem Mark.isTrail_getLast?_stem (mark : Mark) : ∀ c ∈ mark.stem.getLast?, isTrail c = false := by
  cases mark with
  | ifFalse n | ifEnd n | condFalse n | condEnd n | loopStart n | loopEnd n =>
    intro c hc
    cases hc
    rfl
  | inlineEnd name =>
    have hlast : (Mark.inlineEnd name).stem.getLast? = some 'd' := by
      rw [Mark.stem_inlineEnd, getLast?_append]
      rfl
    intro c hc
    rw [hlast] at hc
    cases hc
    rfl

theorem Label.toList_text_inBody (mark : Mark) (path : List Nat) :
    (Label.inBody mark path).text.toList = mark.stem ++ trailText (mark.numbers ++ path) := by
  rw [text, String.toList_append, Mark.toList_text, toList_pathText, trailText_append, append_assoc]

theorem Label.inBody_inj {mark' : Mark} {path' : List Nat}
    (h : (Label.inBody mark path).text = (Label.inBody mark' path').text) :
    Label.inBody mark path = Label.inBody mark' path' := by
  have hlist := congrArg String.toList h
  rw [toList_text_inBody, toList_text_inBody] at hlist
  obtain ⟨hstem, htrail⟩ :=
    stem_trail_inj mark.isTrail_getLast?_stem mark'.isTrail_getLast?_stem hlist
  have hread := readMark_stem mark path
  rw [hstem, htrail, readMark_stem mark' path'] at hread
  cases hread
  rfl

/-! ### All labels -/

theorem Label.head?_text_inBody (mark : Mark) (path : List Nat) :
    (Label.inBody mark path).text.toList.head? = some 'i' ∨
      (Label.inBody mark path).text.toList.head? = some 'l' := by
  rw [toList_text_inBody]
  cases mark with
  | ifFalse n | ifEnd n | condFalse n | condEnd n | inlineEnd name => exact .inl rfl
  | loopStart n | loopEnd n => exact .inr rfl

theorem Label.toList_text_subroutine (name : String) :
    (Label.subroutine name).text.toList = "fun_".toList ++ name.toList :=
  String.toList_append

theorem Label.toList_text_subroutineEnd (name : String) :
    (Label.subroutineEnd name).text.toList = "end_".toList ++ name.toList :=
  String.toList_append

theorem Label.head?_text_subroutine (name : String) :
    (Label.subroutine name).text.toList.head? = some 'f' := by
  rw [toList_text_subroutine]
  rfl

theorem Label.head?_text_subroutineEnd (name : String) :
    (Label.subroutineEnd name).text.toList.head? = some 'e' := by
  rw [toList_text_subroutineEnd]
  rfl

theorem Label.head?_text_programEnd : Label.programEnd.text.toList.head? = some 'e' := rfl

theorem Label.text_inBody_ne (h : l.text.toList.head? = some 'f' ∨ l.text.toList.head? = some 'e') :
    (Label.inBody mark path).text ≠ l.text := by
  intro heq
  rcases head?_text_inBody mark path with hhead | hhead <;> rcases h with h | h <;>
    rw [heq, h] at hhead <;> cases hhead

theorem Label.text_subroutine_ne (h : l.text.toList.head? = some 'e') :
    (Label.subroutine name).text ≠ l.text := by
  intro heq
  have hhead := head?_text_subroutine name
  rw [heq, h] at hhead
  cases hhead

theorem Label.subroutine_inj (h : (Label.subroutine name).text = (Label.subroutine name').text) :
    name = name' := by
  have hlist := congrArg String.toList h
  rw [toList_text_subroutine, toList_text_subroutine] at hlist
  exact String.toList_injective (append_cancel_left hlist)

theorem Label.subroutineEnd_inj
    (h : (Label.subroutineEnd name).text = (Label.subroutineEnd name').text) : name = name' := by
  have hlist := congrArg String.toList h
  rw [toList_text_subroutineEnd, toList_text_subroutineEnd] at hlist
  exact String.toList_injective (append_cancel_left hlist)

theorem Label.text_programEnd : Label.programEnd.text = (Label.subroutineEnd "main").text := by
  decide

/-- The text of a label tells the label, but for the end of a subroutine `main`, whose text the end of
the program has. -/
theorem Label.text_inj {a b : Label} (ha : a ≠ .subroutineEnd "main") (hb : b ≠ .subroutineEnd "main")
    (h : a.text = b.text) : a = b := by
  cases a with
  | inBody mark path =>
    cases b with
    | inBody mark' path' => exact inBody_inj h
    | subroutine name => exact absurd h (text_inBody_ne (.inl (head?_text_subroutine name)))
    | subroutineEnd name =>
      exact absurd h (text_inBody_ne (.inr (head?_text_subroutineEnd name)))
    | programEnd => exact absurd h (text_inBody_ne (.inr head?_text_programEnd))
  | subroutine name =>
    cases b with
    | inBody mark path =>
      exact absurd h.symm (text_inBody_ne (.inl (head?_text_subroutine name)))
    | subroutine name' => rw [subroutine_inj h]
    | subroutineEnd name' => exact absurd h (text_subroutine_ne (head?_text_subroutineEnd name'))
    | programEnd => exact absurd h (text_subroutine_ne head?_text_programEnd)
  | subroutineEnd name =>
    cases b with
    | inBody mark path =>
      exact absurd h.symm (text_inBody_ne (.inr (head?_text_subroutineEnd name)))
    | subroutine name' =>
      exact absurd h.symm (text_subroutine_ne (head?_text_subroutineEnd name))
    | subroutineEnd name' => rw [subroutineEnd_inj h]
    | programEnd =>
      rw [text_programEnd] at h
      rw [subroutineEnd_inj h] at ha
      exact absurd rfl ha
  | programEnd =>
    cases b with
    | inBody mark path => exact absurd h.symm (text_inBody_ne (.inr head?_text_programEnd))
    | subroutine name => exact absurd h.symm (text_subroutine_ne head?_text_programEnd)
    | subroutineEnd name =>
      rw [text_programEnd] at h
      rw [← subroutineEnd_inj h] at hb
      exact absurd rfl hb
    | programEnd => rfl

end Teal.Assembly
