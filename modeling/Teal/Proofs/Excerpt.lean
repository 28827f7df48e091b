import Teal.Proofs.Token.Tiling

/-! An excerpt shows the part of a line that a span points at. Whatever the span is, it is first moved to
boundaries of characters, and the excerpt is cut at boundaries only; so its carets stand under the characters
that the span covers on the line of its start. What is shown on the left and on the right is counted in bytes:
it reaches over twenty bytes, and over fewer than twenty characters if some of them take several bytes. -/

namespace Teal

open List

namespace Text

/-! ### Boundaries -/

/-- An offset in bytes lies between two characters of a text or at one of its ends. -/
def Boundary (text : List Char) (i : Nat) : Prop := ∃ front, front <+: text ∧ byteSize front = i

/-- The last boundary up to an offset. -/
structure IsFloor (text : List Char) (i j : Nat) : Prop where
  boundary : Boundary text j
  le : j ≤ i
  last : ∀ k, Boundary text k → k ≤ i → k ≤ j

/-- The first boundary from an offset on. -/
structure IsCeil (text : List Char) (i j : Nat) : Prop where
  boundary : Boundary text j
  le : i ≤ j
  first : ∀ k, Boundary text k → i ≤ k → j ≤ k

variable {n : Nat} {text front part behind cs : List Char}

theorem byteSize_le_of_isPrefix (h : front <+: text) : byteSize front ≤ byteSize text := by
  obtain ⟨rest, rfl⟩ := h
  simp

theorem byteSize_reverse (cs : List Char) : byteSize cs.reverse = byteSize cs := by
  induction cs with
  | nil => rfl
  | cons c cs ih => simp [ih, Nat.add_comm]

/-- Of two starts of a text the one with fewer bytes is a start of the other. -/
theorem prefix_of_byteSize_le {other : List Char} (h : front <+: text) (h' : other <+: text)
    (hle : byteSize front ≤ byteSize other) : front <+: other := by
  rcases prefix_or_prefix_of_prefix h h' with hfront | ⟨rest, rfl⟩
  · exact hfront
  · by_cases hrest : rest = []
    · simp [hrest]
    · have hpos := byteSize_pos hrest
      rw [byteSize_append] at hle
      omega

theorem splitWithin_append (n : Nat) (cs : List Char) : (splitWithin n cs).1 ++ (splitWithin n cs).2 = cs := by
  induction cs generalizing n with
  | nil => rfl
  | cons c cs ih =>
    simp only [splitWithin]
    split
    · simp [ih]
    · rfl

theorem byteSize_splitWithin_le (n : Nat) (cs : List Char) : byteSize (splitWithin n cs).1 ≤ n := by
  induction cs generalizing n with
  | nil => exact Nat.zero_le n
  | cons c cs ih =>
    simp only [splitWithin]
    split
    · have hrest := ih (n - c.utf8Size)
      simp only [byteSize_cons]
      omega
    · exact Nat.zero_le n

/-- A start of a text that fits is a start of the one that is split off. -/
theorem byteSize_le_splitWithin (h : front <+: cs) (hn : byteSize front ≤ n) :
    byteSize front ≤ byteSize (splitWithin n cs).1 := by
  induction cs generalizing n front with
  | nil => simp [prefix_nil.mp h]
  | cons c cs ih =>
    cases front with
    | nil => exact Nat.zero_le _
    | cons d front =>
      obtain ⟨rfl, hrest⟩ := cons_prefix_cons.mp h
      rw [byteSize_cons] at hn
      have hfits : d.utf8Size ≤ n := by omega
      simp only [splitWithin, if_pos hfits, byteSize_cons]
      exact Nat.add_le_add_left (ih hrest (by omega)) _

theorem takeReaching_isPrefix (n : Nat) (cs : List Char) : takeReaching n cs <+: cs := by
  induction cs generalizing n with
  | nil => exact prefix_refl _
  | cons c cs ih =>
    simp only [takeReaching]
    split
    · exact nil_prefix
    · exact cons_prefix_cons.mpr ⟨rfl, ih _⟩

theorem min_le_byteSize_takeReaching (n : Nat) (cs : List Char) :
    min n (byteSize cs) ≤ byteSize (takeReaching n cs) := by
  induction cs generalizing n with
  | nil => simp [takeReaching]
  | cons c cs ih =>
    simp only [takeReaching]
    split
    · omega
    · have hrest := ih (n - c.utf8Size)
      simp only [byteSize_cons]
      omega

/-- One more character is taken exactly if those before it do not reach far enough. -/
theorem lt_length_takeReaching_iff {m : Nat} :
    m < (takeReaching n cs).length ↔ m < cs.length ∧ byteSize (cs.take m) < n := by
  induction cs generalizing n m with
  | nil => simp [takeReaching]
  | cons c cs ih =>
    simp only [takeReaching]
    split
    · simp [*]
    · cases m with
      | zero => simp; omega
      | succ m =>
        simp only [length_cons, take_succ_cons, byteSize_cons, Nat.add_lt_add_iff_right, ih]
        omega

/-- A start of a text that reaches far enough has no fewer characters than the one that is taken. -/
theorem takeReaching_isPrefix_of_le (h : front <+: cs) (hn : n ≤ byteSize front) : takeReaching n cs <+: front := by
  refine prefix_of_prefix_length_le (takeReaching_isPrefix n cs) h (Nat.le_of_not_lt fun hlt => ?_)
  have htaken := (lt_length_takeReaching_iff.mp hlt).2
  rw [← prefix_iff_eq_take.mp h] at htaken
  omega

theorem isFloor_splitWithin (n : Nat) (cs : List Char) :
    IsFloor cs (min n (byteSize cs)) (byteSize (splitWithin n cs).1) where
  boundary := ⟨_, ⟨_, splitWithin_append n cs⟩, rfl⟩
  le := by
    refine Nat.le_min.mpr ⟨byteSize_splitWithin_le n cs, ?_⟩
    exact byteSize_le_of_isPrefix ⟨_, splitWithin_append n cs⟩
  last := by
    rintro _ ⟨front, hfront, rfl⟩ hle
    exact byteSize_le_splitWithin hfront (Nat.le_trans hle (Nat.min_le_left _ _))

/-- Characters that reach over some bytes of a part of a text, or over all of it. -/
theorem isCeil_takeReaching (front part : List Char) (htext : front ++ part <+: text) (n : Nat) :
    IsCeil text (min (byteSize front + n) (byteSize (front ++ part))) (byteSize (front ++ takeReaching n part)) := by
  have hpart : front ++ takeReaching n part <+: front ++ part :=
    (prefix_append_right_inj front).mpr (takeReaching_isPrefix n part)
  refine ⟨⟨_, hpart.trans htext, rfl⟩, ?_, ?_⟩
  · have hreach := min_le_byteSize_takeReaching n part
    simp only [byteSize_append]
    omega
  · rintro _ ⟨other, hother, rfl⟩ hle
    by_contra hlt
    have hshort := byteSize_le_of_isPrefix hpart
    obtain ⟨taken, rfl⟩ : front <+: other :=
      prefix_of_byteSize_le ((prefix_append _ _).trans htext) hother (by omega)
    have htaken : front ++ taken <+: front ++ part := prefix_of_byteSize_le hother htext (by omega)
    have hall := byteSize_le_of_isPrefix (takeReaching_isPrefix_of_le (n := n)
      ((prefix_append_right_inj front).mp htaken) (by simp only [byteSize_append] at *; omega))
    simp only [byteSize_append] at hlt
    omega

/-- Characters that reach over some bytes before the end of a part of a text, or over all of it. -/
theorem isFloor_takeReaching {hidden : List Char} (htext : front ++ part <+: text) (n : Nat)
    (hpart : part = hidden ++ (takeReaching n part.reverse).reverse) :
    IsFloor text (max (byteSize (front ++ part) - n) (byteSize front)) (byteSize (front ++ hidden)) := by
  have hreach := min_le_byteSize_takeReaching n part.reverse
  have hsize := congrArg byteSize hpart
  rw [byteSize_append, byteSize_reverse] at hsize
  rw [byteSize_reverse] at hreach
  refine ⟨⟨_, ?_, rfl⟩, ?_, ?_⟩
  · refine List.IsPrefix.trans ?_ htext
    exact (prefix_append_right_inj front).mpr ⟨_, hpart.symm⟩
  · simp only [byteSize_append]
    omega
  · rintro _ ⟨other, hother, rfl⟩ hle
    by_contra hlt
    simp only [byteSize_append] at hle hlt
    obtain ⟨taken, rfl⟩ : front <+: other :=
      prefix_of_byteSize_le ((prefix_append _ _).trans htext) hother (by omega)
    simp only [byteSize_append] at hle hlt
    have htaken : front ++ taken <+: front ++ part :=
      prefix_of_byteSize_le hother htext (by simp only [byteSize_append]; omega)
    obtain ⟨rest, hrest⟩ := (prefix_append_right_inj front).mp htaken
    have hrest' : rest.reverse <+: part.reverse := ⟨taken.reverse, by rw [← hrest, reverse_append]⟩
    have hrestsize := congrArg byteSize hrest
    rw [byteSize_append] at hrestsize
    have hall := byteSize_le_of_isPrefix (takeReaching_isPrefix_of_le (n := n) hrest'
      (by rw [byteSize_reverse]; omega))
    rw [byteSize_reverse] at hall
    omega

end Text

namespace Excerpt

open Text

/-- The parts of a source around a place: the lines above, what is hidden and what is shown of the line before
the place, the place itself, what is shown and hidden of the line behind it, and the lines below. -/
structure Parts where
  above : List Char
  hidden : List Char
  shown : List Char
  token : List Char
  next : List Char
  unseen : List Char
  below : List Char

namespace Parts

variable (p : Parts)

def head : List Char := p.hidden ++ p.shown

def tail : List Char := p.next ++ p.unseen

def line : List Char := p.head ++ p.token ++ p.tail

def start : Nat := byteSize (p.above ++ p.head)

def stop : Nat := byteSize (p.above ++ p.head ++ p.token)

def lineStop : Nat := byteSize (p.above ++ p.line)

/-- The parts are those of a source at a span. The place starts at the last boundary up to the start of the span,
and stops at the first one from its stop on, or at the end of the line. -/
structure Cut (source : List Char) (span : Span) : Prop where
  source_eq : source = p.above ++ p.line ++ p.below
  line : '\n' ∉ p.line
  above : ∀ c ∈ p.above.getLast?, c = '\n'
  below : ∀ c ∈ p.below.head?, c = '\n'
  start : IsFloor source (min span.start (byteSize source)) p.start
  stop : ∃ stop, IsCeil source (max p.start (min span.stop (byteSize source))) stop ∧
    p.stop = min stop p.lineStop
  windowStart : IsFloor source (max (p.start - 20) (byteSize p.above)) (byteSize (p.above ++ p.hidden))
  windowStop : IsCeil source (min (p.stop + 20) p.lineStop)
    (byteSize (p.above ++ p.head ++ p.token ++ p.next))

structure DrawnAs (e : Excerpt) : Prop where
  line : e.line = 1 + (p.above ++ p.head).count '\n'
  column : e.column = 1 + p.head.length
  text : e.text.toList = p.shown ++ p.token ++ p.next
  marker : e.marker.toList =
    List.replicate p.shown.length ' ' ++ List.replicate (max p.token.length 1) '^'

end Parts

theorem exists_line (cs : List Char) : ∃ line rest, cs = line ++ rest ∧ '\n' ∉ line ∧
    (∀ c ∈ rest.head?, c = '\n') ∧ cs.takeWhile (· != '\n') = line := by
  obtain ⟨line, rest, rfl, hline, hrest⟩ := Scan.exists_takeWhile (· != '\n') cs
  refine ⟨line, rest, rfl, fun hmem => ?_, fun c hc => ?_, Scan.takeWhile_stop hline hrest⟩
  · exact absurd (hline _ hmem) (by decide)
  · simpa using hrest c hc

theorem exists_lineEnd (cs : List Char) : ∃ above line, cs = above ++ line ∧ '\n' ∉ line ∧
    (∀ c ∈ above.getLast?, c = '\n') ∧ (cs.reverse.takeWhile (· != '\n')).reverse = line := by
  obtain ⟨line, above, hcs, hline, habove, htake⟩ := exists_line cs.reverse
  refine ⟨above.reverse, line.reverse, ?_, by simpa using hline, by simpa using habove, by rw [htake]⟩
  rw [← reverse_append, ← hcs, reverse_reverse]

/-- The window is cut out of the line on both sides of a place. -/
theorem exists_windows (above head token tail below : List Char) : ∃ p : Parts,
    p.above = above ∧ p.head = head ∧ p.token = token ∧ p.tail = tail ∧ p.below = below ∧
      p.shown = (takeReaching 20 head.reverse).reverse ∧ p.next = takeReaching 20 tail := by
  obtain ⟨hidden, hhidden⟩ := takeReaching_isPrefix 20 head.reverse
  obtain ⟨unseen, hunseen⟩ := takeReaching_isPrefix 20 tail
  refine ⟨⟨above, hidden.reverse, (takeReaching 20 head.reverse).reverse, token, takeReaching 20 tail, unseen,
    below⟩, rfl, ?_, rfl, hunseen, rfl, rfl, rfl⟩
  rw [Parts.head, ← reverse_append, hhidden, reverse_reverse]

/-- A place that is cut at the end of its line has nothing of the line behind it. -/
theorem byteSize_token {cut rest tail below : List Char} (token : List Char) (hcut : ∀ c ∈ cut.head?, c = '\n')
    (htail : '\n' ∉ tail) (hrest : cut ++ rest = tail ++ below) :
    byteSize token = min (byteSize (token ++ cut)) (byteSize (token ++ tail)) := by
  cases cut with
  | nil => simp
  | cons c cut =>
    have hnil : tail = [] := by
      cases tail with
      | nil => rfl
      | cons d tail =>
        have hc : c = '\n' := hcut c rfl
        have hd : c = d := (List.cons.inj hrest).1
        simp [← hd, hc] at htail
    simp [hnil]

/-- The text from the start of a place on: the place, which stops at a boundary or at the end of the line, the rest
of the line and the lines below. -/
theorem exists_token (before after : List Char) (stop : Nat) : ∃ token tail below,
    after = token ++ tail ++ below ∧ '\n' ∉ token ++ tail ∧ (∀ c ∈ below.head?, c = '\n') ∧
      (∃ i, IsCeil (before ++ after) (max (byteSize before) (min stop (byteSize (before ++ after)))) i ∧
        byteSize (before ++ token) = min i (byteSize (before ++ token ++ tail))) ∧
      (takeReaching (stop - byteSize before) after).takeWhile (· != '\n') = token ∧
      (after.drop token.length).takeWhile (· != '\n') = tail := by
  have hceil := isCeil_takeReaching before after prefix_rfl (stop - byteSize before)
  obtain ⟨rest, hrest⟩ := takeReaching_isPrefix (stop - byteSize before) after
  generalize takeReaching (stop - byteSize before) after = taken at hceil hrest ⊢
  obtain ⟨token, cut, rfl, htoken, hcut, htokenOf⟩ := exists_line taken
  obtain ⟨tail, below, hbehind, htail, hbelow, htailOf⟩ := exists_line (cut ++ rest)
  have hafter : token ++ tail ++ below = after := by
    rw [← hrest, append_assoc, ← hbehind, append_assoc]
  have hclamp : max (byteSize before) (min stop (byteSize (before ++ after))) =
      min (byteSize before + (stop - byteSize before)) (byteSize (before ++ after)) := by
    simp only [byteSize_append]
    omega
  refine ⟨token, tail, below, hafter.symm, ?_, hbelow, ⟨_, hclamp ▸ hceil, ?_⟩, htokenOf, ?_⟩
  · simp [htoken, htail]
  · have hstop := byteSize_token token hcut htail hbehind
    simp only [byteSize_append] at hstop ⊢
    omega
  · rw [← hrest, append_assoc, drop_left, htailOf]

theorem exists_parts (source : String) (span : Span) : ∃ p : Parts,
    p.Cut source.toList span ∧ p.DrawnAs (locate source span) ∧
      p.shown = (takeReaching 20 p.head.reverse).reverse ∧ p.next = takeReaching 20 p.tail := by
  have hsource := splitWithin_append span.start source.toList
  have hstart := isFloor_splitWithin span.start source.toList
  rw [locate]
  generalize splitWithin span.start source.toList = halves at hsource hstart ⊢
  generalize source.toList = text at hsource hstart ⊢
  obtain ⟨before, after⟩ := halves
  subst hsource
  dsimp only at hstart ⊢
  obtain ⟨above, head, rfl, hhead, habove, hheadOf⟩ := exists_lineEnd before
  obtain ⟨token, tail, below, rfl, hline, hbelow, hstop, htokenOf, htailOf⟩ :=
    exists_token (above ++ head) after span.stop
  rw [hheadOf, htokenOf, htailOf]
  obtain ⟨p, rfl, rfl, rfl, rfl, rfl, hshown, hnext⟩ := exists_windows above head token tail below
  have hupto : p.above ++ p.head ++ p.token ++ p.tail <+: p.above ++ p.head ++ (p.token ++ p.tail ++ p.below) :=
    ⟨p.below, by simp⟩
  have hlineStop : p.lineStop = byteSize (p.above ++ p.head ++ p.token ++ p.tail) := by
    simp [Parts.lineStop, Parts.line]
  refine ⟨p, ⟨?_, ?_, habove, hbelow, hstart, ?_, ?_, ?_⟩, ⟨?_, ?_, ?_, ?_⟩, hshown, hnext⟩
  · simp [Parts.line]
  · simp_all [Parts.line]
  · rwa [hlineStop]
  · refine isFloor_takeReaching (prefix_append _ _) 20 ?_
    rw [← hshown]
    rfl
  · rw [hlineStop, hnext]
    exact isCeil_takeReaching _ _ hupto 20
  · exact Nat.add_comm _ _
  · exact Nat.add_comm _ _
  · rw [hshown, hnext, String.toList_ofList]
    rfl
  · rw [hshown, String.toList_ofList]
    rfl

/-- An excerpt is cut at boundaries of characters, stands in the line of the place, and its carets stand under the
characters of the place. -/
theorem locate_aligned (source : String) (span : Span) :
    ∃ p : Parts, p.Cut source.toList span ∧ p.DrawnAs (locate source span) := by
  obtain ⟨p, hcut, hdrawn, -⟩ := exists_parts source span
  exact ⟨p, hcut, hdrawn⟩

theorem length_le_byteSize (cs : List Char) : cs.length ≤ byteSize cs := by
  induction cs with
  | nil => exact .refl
  | cons c cs ih =>
    have hc := c.utf8Size_pos
    simp only [length_cons, byteSize_cons]
    omega

/-- As many characters as bytes are asked for are taken just if all but the last of them take less than that. -/
theorem length_takeReaching {n : Nat} (hn : 0 < n) (cs : List Char) :
    (takeReaching n cs).length ≤ min n cs.length ∧
      ((takeReaching n cs).length = min n cs.length ↔ byteSize (cs.take (min n cs.length - 1)) < n) := by
  have hle : (takeReaching n cs).length ≤ min n cs.length := by
    refine Nat.le_of_not_lt fun hlt => ?_
    obtain ⟨hlength, hbytes⟩ := lt_length_takeReaching_iff.mp hlt
    have htaken := length_le_byteSize (cs.take (min n cs.length))
    rw [length_take] at htaken
    omega
  refine ⟨hle, ?_⟩
  by_cases hcs : cs = []
  · simp [hcs, takeReaching, hn]
  · have hpos : 0 < cs.length := length_pos_of_ne_nil hcs
    have hlast : min n cs.length - 1 < (takeReaching n cs).length ↔ _ := lt_length_takeReaching_iff
    omega

/-- Twenty characters are shown on a side, or all that there are, just if those next to the place, without the last
one that is shown, take less than twenty bytes; otherwise fewer are shown. -/
theorem locate_window (source : String) (span : Span) : ∃ p : Parts,
    p.Cut source.toList span ∧ p.DrawnAs (locate source span) ∧
      (p.shown.length ≤ min 20 p.head.length ∧ (p.shown.length = min 20 p.head.length ↔
        byteSize (p.head.reverse.take (min 20 p.head.length - 1)) < 20)) ∧
      (p.next.length ≤ min 20 p.tail.length ∧ (p.next.length = min 20 p.tail.length ↔
        byteSize (p.tail.take (min 20 p.tail.length - 1)) < 20)) := by
  obtain ⟨p, hcut, hdrawn, hshown, hnext⟩ := exists_parts source span
  refine ⟨p, hcut, hdrawn, ?_, ?_⟩
  · have hbefore := length_takeReaching (n := 20) (by decide) p.head.reverse
    rw [length_reverse] at hbefore
    rwa [hshown, length_reverse]
  · rw [hnext]
    exact length_takeReaching (by decide) p.tail

/-- A line of characters that take two bytes each. -/
def Sample.wide : String := .ofList (List.replicate 21 'é' ++ ['x'])

/-- Of twenty-one characters before a place ten are shown. -/
theorem locate_window_wide : Span.LiesIn ⟨0, 42, 43⟩ Sample.wide ∧ ∃ p : Parts,
    p.Cut Sample.wide.toList ⟨0, 42, 43⟩ ∧ p.DrawnAs (locate Sample.wide ⟨0, 42, 43⟩) ∧
      p.head.length = 21 ∧ p.shown.length = 10 := by
  constructor
  · have hparts : Sample.wide.toList = List.replicate 21 'é' ++ ['x'] ++ [] := String.toList_ofList
    exact Span.liesIn_of_append 0 hparts (by decide)
  · obtain ⟨p, hcut, hdrawn, -⟩ := exists_parts Sample.wide ⟨0, 42, 43⟩
    have hcolumn : (locate Sample.wide ⟨0, 42, 43⟩).column = 22 := by decide
    have hmarker : (locate Sample.wide ⟨0, 42, 43⟩).marker.toList = List.replicate 10 ' ' ++ ['^'] := by decide
    have hshown := congrArg (List.count ' ') (hmarker.symm.trans hdrawn.marker)
    have hhead := hcolumn.symm.trans hdrawn.column
    simp only [count_append, count_replicate_self] at hshown
    refine ⟨p, hcut, hdrawn, by omega, ?_⟩
    simpa [count_replicate] using hshown.symm

end Excerpt

end Teal
