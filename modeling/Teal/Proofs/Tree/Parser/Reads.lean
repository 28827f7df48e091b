import Teal.Proofs.Tree.Parser.Places
import Teal.Proofs.Tree.Spelling

/-! Parsers on lexemes that are as they should be. A parser reads some lexemes if it takes them from any
state that starts with them, yields a given value and finds no fault; the value may depend on what comes
next, so that is subject to a condition. All tokens are at no place, so that what is read is a tree without
places. Each way to combine parsers keeps this. -/

namespace Teal.Parser

open Teal.Tree List

def placeless (ls : List Lexeme) : List Token := ls.map fun l => ⟨l, .nowhere⟩

theorem map_lexeme_placeless (ls : List Lexeme) : (placeless ls).map Token.lexeme = ls := by
  rw [placeless, map_map]
  exact map_id ls

/-- Lexemes are next, at no place, and nothing went wrong so far. -/
structure State.Holds (ls : List Lexeme) (s : State) : Prop where
  rest : s.rest = placeless ls
  finish : s.finish = .nowhere
  last : ∀ t ∈ s.last, t.span = .nowhere
  lost : s.lost = 0
  quiet : ∀ d ∈ s.diagnostics, d.isFatal = false

namespace State.Holds

variable {ls : List Lexeme} {s : State}

variable (h : s.Holds ls)

include h

theorem next : s.next = ls.head? := by
  rw [State.next, h.rest]
  cases ls <;> rfl

theorem here : s.here = .nowhere := by
  unfold State.here
  rw [h.rest]
  cases ls with
  | nil => exact h.finish
  | cons l ls => rfl

theorem behind : s.behind = .nowhere := by
  unfold State.behind
  cases hlast : s.last with
  | none => exact h.here
  | some t => exact h.last t hlast

theorem errors : s.errors = 0 :=
  countP_eq_zero.mpr fun d hd => Bool.eq_false_iff.mp (h.quiet d hd)

theorem length : s.rest.length = ls.length := by
  rw [h.rest, placeless, length_map]

omit h

theorem start (ls : List Lexeme) : (State.start (placeless ls) .nowhere).Holds ls :=
  ⟨rfl, rfl, nofun, rfl, nofun⟩

end State.Holds

/-- A parser reads lexemes as a value where the next lexeme meets a condition. -/
def Reads {α : Type} (p : Parser α) (ls : List Lexeme) (a : α) (next : Option Lexeme → Prop) : Prop :=
  ∀ (s : State) (rest : List Lexeme), s.Holds (ls ++ rest) → next rest.head? →
    ∃ t, p.run s = (a, t) ∧ t.Holds rest

/-- What is read without places is read where the lexemes are found, but for places. -/
theorem Reads.run_start {α : Type} {p : Parser α} {ls : List Lexeme} {a : α} {next : Option Lexeme → Prop}
    (h : Reads p ls a next) (hnext : next none) {V : α → α → Prop} (hstep : InStep anywhere p p V)
    {tokens : List Token} (htokens : tokens.map Token.lexeme = ls) (finish : Span) :
    V (p.run (.start tokens finish)).1 a ∧ (p.run (.start tokens finish)).2.errors = 0 ∧
      (p.run (.start tokens finish)).2.rest = [] := by
  have hstart : (State.start (placeless ls) .nowhere).Holds (ls ++ []) := by
    rw [append_nil]
    exact .start ls
  obtain ⟨t, hrun, hholds⟩ := h _ [] hstart hnext
  obtain ⟨hvalue, hstate⟩ :=
    hstep.start (htokens.trans (map_lexeme_placeless ls).symm) finish .nowhere
  rw [hrun] at hvalue hstate
  refine ⟨hvalue, hstate.errors.trans hholds.errors, ?_⟩
  have hrest := hstate.rest
  rw [hholds.rest] at hrest
  exact forall₂_nil_right_iff.mp hrest

/-- Whatever comes next. -/
def anything {α : Type} (_ : Option α) : Prop := True

section Rules

variable {α β : Type} {p : Parser α} {f : α → Parser β} {ls ls' : List Lexeme} {l : Lexeme} {a : α}
  {b : β} {next next' : Option Lexeme → Prop}

theorem reads_pure (a : α) : Reads (pure a) [] a next := fun s _ hs _ => ⟨s, rfl, hs⟩

theorem reads_imp (h : Reads p ls a next) (himp : ∀ x, next' x → next x) : Reads p ls a next' :=
  fun s rest hs hnext => h s rest hs (himp _ hnext)

theorem reads_bind (hp : Reads p ls a next) (hf : Reads (f a) ls' b next')
    (hnext : ∀ x, next' x → next (ls'.head?.or x)) : Reads (p >>= f) (ls ++ ls') b next' := by
  intro s rest hs hrest
  rw [append_assoc] at hs
  obtain ⟨t, ht, hholds⟩ := hp s (ls' ++ rest) hs (by rw [head?_append]; exact hnext _ hrest)
  obtain ⟨u, hu, hholds'⟩ := hf t rest hholds hrest
  refine ⟨u, ?_, hholds'⟩
  rw [run_bind, ht]
  exact hu

/-- A parser that takes one lexeme, and another one after it. -/
theorem reads_cons (hp : Reads p [l] a anything) (hf : Reads (f a) ls b next) :
    Reads (p >>= f) (l :: ls) b next :=
  reads_bind hp hf fun _ _ => trivial

/-- A parser that takes no lexeme, and another one after it. -/
theorem reads_then (hp : Reads p [] a anything) (hf : Reads (f a) ls b next) : Reads (p >>= f) ls b next :=
  reads_bind hp hf fun _ _ => trivial

/-- A parser that takes all, and another one that takes nothing. -/
theorem reads_nil (hp : Reads p ls a next) (hf : Reads (f a) [] b next')
    (hnext : ∀ x, next' x → next x) : Reads (p >>= f) ls b next' := by
  have hall := reads_bind hp hf hnext
  rwa [append_nil] at hall

theorem reads_look {g : State → α} (hg : ∀ s rest, s.Holds (ls ++ rest) → next rest.head? → g s = a)
    (hf : Reads (f a) ls b next) : Reads (look g >>= f) ls b next := by
  intro s rest hs hnext
  have hrun : (look g >>= f).run s = (f a).run s :=
    congrArg (fun v => (f v).run s) (hg s rest hs hnext)
  rw [hrun]
  exact hf s rest hs hnext

/-! ### Loops -/

variable {step : α → Parser (Turn α)}

theorem reads_iterate_last {c : α} (h : Reads (step a) ls (.last c) next) :
    Reads (iterate a step) ls c next := by
  intro s rest hs hnext
  obtain ⟨t, ht, hholds⟩ := h s rest hs hnext
  exact ⟨t, iterateFrom_last ht, hholds⟩

theorem reads_iterate_again {c d : α} (hls : ls ≠ []) (h : Reads (step a) ls (.again c) next)
    (hrest : Reads (iterate c step) ls' d next') (hnext : ∀ x, next' x → next (ls'.head?.or x)) :
    Reads (iterate a step) (ls ++ ls') d next' := by
  intro s rest hs hmeets
  rw [append_assoc] at hs
  obtain ⟨t, ht, hholds⟩ := h s (ls' ++ rest) hs (by rw [head?_append]; exact hnext _ hmeets)
  have hless : t.rest.length < s.rest.length := by
    have hpos := length_pos_iff.mpr hls
    simp only [hs.length, hholds.length, length_append]
    omega
  obtain ⟨u, hu, hholds'⟩ := hrest t rest hholds hmeets
  exact ⟨u, (iterateFrom_again ht hless).trans hu, hholds'⟩

end Rules

/-! ### Tokens -/

section Tokens

variable {β : Type} {ls : List Lexeme} {l : Lexeme} {b : β} {next : Option Lexeme → Prop}

theorem advance_reads (l : Lexeme) : Reads advance [l] () anything := by
  intro s rest hs _
  have hrest : s.rest = ⟨l, .nowhere⟩ :: placeless rest := hs.rest
  refine ⟨{ s with rest := placeless rest, last := some ⟨l, .nowhere⟩ }, ?_,
    ⟨rfl, hs.finish, ?_, hs.lost, hs.quiet⟩⟩
  · simp only [advance, hrest]
  · rintro t ⟨⟩
    rfl

theorem reads_here {f : Span → Parser β} (h : Reads (f .nowhere) ls b next) : Reads (here >>= f) ls b next :=
  reads_look (fun _ _ hs _ => hs.here) h

theorem reads_behind {f : Span → Parser β} (h : Reads (f .nowhere) ls b next) :
    Reads (behind >>= f) ls b next :=
  reads_look (fun _ _ hs _ => hs.behind) h

variable {f : Option Lexeme → Parser β}

/-- The next lexeme is the first one of those that are read, if there are any. -/
theorem reads_peek_head (hl : ls.head? = some l) (h : Reads (f (some l)) ls b next) :
    Reads (peek >>= f) ls b next := by
  refine reads_look (fun _ _ hs _ => ?_) h
  rw [hs.next, head?_append, hl]
  rfl

theorem reads_peek (h : Reads (f (some l)) (l :: ls) b next) : Reads (peek >>= f) (l :: ls) b next :=
  reads_peek_head rfl h

/-- A lexeme that tells what follows it, and of which the place is kept. -/
theorem reads_first {f : Span → Option Lexeme → Parser β} {g : Unit → Parser β}
    (hf : f .nowhere (some l) = advance >>= g) (h : Reads (g ()) ls b next) :
    Reads (here >>= fun start => peek >>= f start) (l :: ls) b next :=
  reads_here (reads_peek (hf ▸ reads_cons (advance_reads l) h))

/-- The next lexeme is one behind those that are read. -/
theorem reads_peek_nil (h : ∀ x, next x → Reads (f x) [] b next) : Reads (peek >>= f) [] b next := by
  intro s rest hs hnext
  have hrun : (peek >>= f).run s = (f rest.head?).run s :=
    congrArg (fun v => (f v).run s) hs.next
  rw [hrun]
  exact h rest.head? hnext s rest hs hnext

theorem reads_sees {f : Bool → Parser β} (found : Bool)
    (hl : ∀ x, next x → (ls.head?.or x == some l) = found) (h : Reads (f found) ls b next) :
    Reads (sees l >>= f) ls b next := by
  refine reads_look (fun s rest hs hnext => ?_) h
  rw [hs.next, head?_append]
  exact hl _ hnext

theorem reads_atEnd {f : Bool → Parser β} (hl : ls.head? = some l) (h : Reads (f false) ls b next) :
    Reads (atEnd >>= f) ls b next := by
  refine reads_look (fun s rest hs _ => ?_) h
  obtain ⟨tail, rfl⟩ := head?_eq_some_iff.mp hl
  rw [hs.rest]
  rfl

/-- A loop up to a closing lexeme goes on where another one is next. -/
theorem reads_closed_other {f : Bool → Bool → Parser β} {l' : Lexeme} (hl : ls.head? = some l')
    (hne : l' ≠ l) (h : Reads (f false false) ls b next) :
    Reads (do let ended ← atEnd; let closed ← sees l; f ended closed) ls b next := by
  refine reads_atEnd hl (reads_sees false (fun x _ => ?_) h)
  rw [hl, beq_eq_false_iff_ne]
  exact fun heq => hne (Option.some.inj heq)

theorem reads_closed {f : Bool → Bool → Parser β} (h : Reads (f false true) [] b (· = some l)) :
    Reads (do let ended ← atEnd; let closed ← sees l; f ended closed) [] b (· = some l) := by
  refine reads_look (a := false) (fun s rest hs hl => ?_) (reads_sees true (fun x hx => ?_) h)
  · obtain ⟨tail, rfl⟩ := head?_eq_some_iff.mp hl
    rw [hs.rest]
    rfl
  · rw [hx]
    exact beq_self_eq_true _

theorem eat_reads (l : Lexeme) : Reads (eat l) [l] true anything :=
  reads_sees true (fun _ _ => beq_self_eq_true _) (reads_cons (advance_reads l) (reads_pure true))

/-- Another lexeme is next than the one that may be taken. -/
theorem reads_eat_other {f : Bool → Parser β} (hl : ∀ x, next x → ls.head?.or x ≠ some l)
    (h : Reads (f false) ls b next) : Reads (eat l >>= f) ls b next := by
  have heat : Reads (eat l) [] false (· ≠ some l) :=
    reads_sees false (fun _ hx => beq_eq_false_iff_ne.mpr hx) (reads_pure false)
  exact reads_bind heat h hl

theorem expect_reads (l : Lexeme) : Reads (expect l) [l] () anything :=
  reads_cons (eat_reads l) (reads_pure ())

/-- The lexeme that closes a phrase is where its span ends. -/
theorem closing_reads (l : Lexeme) (close : Span → β) :
    Reads (do expect l; return close (← behind)) [l] (close .nowhere) next :=
  reads_cons (expect_reads l) (reads_behind (reads_pure _))

theorem expectIdent_reads (name : String) : Reads expectIdent [.ident name] ⟨name, .nowhere⟩ anything :=
  reads_first rfl (reads_pure _)

end Tokens

/-! ### Nesting and recovery -/

section Nesting

variable {α : Type} {ls : List Lexeme} {a : α} {next : Option Lexeme → Prop}

theorem nested_reads {room : Nat} {refused inside : Parser α} (hroom : 0 < room)
    (h : Reads inside ls a next) : Reads (nested room refused inside) ls a next := by
  refine reads_look (fun _ _ hs _ => hs.lost) ?_
  rw [if_pos hroom]
  exact h

/-- Where nothing is wrong there is nothing to recover from. -/
theorem recovering_reads {step : Parser α} {afterwards : Parser Unit} (hls : ls ≠ [])
    (h : Reads step ls a next) : Reads (recovering step afterwards) ls a next := by
  intro s rest hs hnext
  obtain ⟨t, ht, hholds⟩ := h s rest hs hnext
  have hlength : (t.rest.length == s.rest.length) = false := by
    have hpos := length_pos_iff.mpr hls
    rw [hs.length, hholds.length, length_append, beq_eq_false_iff_ne]
    omega
  refine ⟨t, ?_, hholds⟩
  simp only [recovering, run_bind, look, ht, hs.errors, hholds.errors, hlength, Nat.lt_irrefl, if_false,
    Bool.false_eq_true, run_pure]

end Nesting

/-! ### Lists -/

theorem listing_cons_cons (ls ls' : List Lexeme) (parts : List (List Lexeme)) :
    listing (ls :: ls' :: parts) = (ls ++ [.mark .comma]) ++ listing (ls' :: parts) := by
  rw [listing, intercalate_cons_cons, listing, append_assoc]

/-- A part that is not the last has a comma behind it. -/
theorem listSpelled_cons_cons {F : Freedom → Prop} {ls ls' all : List Lexeme} {parts : List (List Lexeme)}
    (h : ListSpelled F (ls :: ls' :: parts) all) :
    ∃ more, ListSpelled F (ls' :: parts) more ∧ all = (ls ++ [.mark .comma]) ++ more := by
  cases h with
  | plain => exact ⟨_, .plain, listing_cons_cons ls ls' parts⟩
  | trailing hfree =>
    exact ⟨_, .trailing hfree (cons_ne_nil _ _), by rw [listing_cons_cons, append_assoc]⟩

section Lists

variable {α β : Type} {p : Parser α} {next : Option Lexeme → Prop}

variable {ls : List Lexeme} {l : Lexeme} {a : α} (acc : List α)

theorem listedStep_closed : Reads (listedStep p acc) [] (.last acc) (· = some (.mark .rparen)) :=
  reads_closed (reads_pure _)

theorem listedStep_last (hp : Reads p ls a next) (hclose : next (some (.mark .rparen)))
    (hl : ls.head? = some l) (hne : l ≠ .mark .rparen) :
    Reads (listedStep p acc) ls (.last (acc ++ [a])) (· = some (.mark .rparen)) := by
  refine reads_closed_other hl hne ?_
  refine reads_nil hp (reads_eat_other ?_ (reads_pure _)) fun x hx => hx ▸ hclose
  rintro _ rfl
  nofun

theorem listedStep_again (hp : Reads p ls a next) (hcomma : next (some (.mark .comma)))
    (hl : ls.head? = some l) (hne : l ≠ .mark .rparen) :
    Reads (listedStep p acc) (ls ++ [.mark .comma]) (.again (acc ++ [a])) anything := by
  refine reads_closed_other (by rw [head?_append, hl]; rfl) hne ?_
  exact reads_bind hp (reads_cons (eat_reads _) (reads_pure _)) fun _ _ => hcomma

/-- What is read as an item and does not start with a parenthesis. -/
def ReadsItem (p : Parser α) (next : Option Lexeme → Prop) (a : α) (ls : List Lexeme) : Prop :=
  Reads p ls a next ∧ ∃ l, ls.head? = some l ∧ l ≠ .mark .rparen

/-- Items are read up to the parenthesis, with or without a comma behind the last. -/
theorem listed_reads {F : Freedom → Prop} (hcomma : next (some (.mark .comma)))
    (hclose : next (some (.mark .rparen))) {items : List α} {parts : List (List Lexeme)}
    (h : List.Forall₂ (ReadsItem p next) items parts) (hls : ListSpelled F parts ls) :
    Reads (listed p) ls items (· = some (.mark .rparen)) := by
  have hloop (acc : List α) :
      Reads (iterate acc (listedStep p)) ls (acc ++ items) (· = some (.mark .rparen)) := by
    induction h generalizing acc ls with
    | nil =>
      rw [append_nil]
      cases hls with
      | plain => exact reads_iterate_last (listedStep_closed acc)
      | trailing hfree hparts => exact absurd rfl hparts
    | @cons a part items parts hitem hitems ih =>
      obtain ⟨ha, l, hl, hne⟩ := hitem
      have hagain := listedStep_again acc ha hcomma hl hne
      cases hitems with
      | nil =>
        cases hls with
        | plain =>
          rw [listing, intercalate_singleton]
          exact reads_iterate_last (listedStep_last acc ha hclose hl hne)
        | trailing =>
          rw [listing, intercalate_singleton, ← append_nil (part ++ _)]
          exact reads_iterate_again (by simp) hagain (reads_iterate_last (listedStep_closed _)) fun _ _ => trivial
      | cons hnext hrest =>
        obtain ⟨more, hmore, rfl⟩ := listSpelled_cons_cons hls
        have hreads := ih hmore (acc ++ [a])
        rw [append_assoc] at hreads
        exact reads_iterate_again (by simp) hagain hreads fun _ _ => trivial
  exact hloop []

end Lists

/-! ### Sequences -/

theorem listing_cons (ls : List Lexeme) (parts : List (List Lexeme)) :
    listing (ls :: parts) = ls ++ parts.flatMap fun part => .mark .comma :: part := by
  induction parts generalizing ls with
  | nil => rw [listing, intercalate_singleton, flatMap_nil, append_nil]
  | cons part parts ih =>
    rw [listing_cons_cons, ih, flatMap_cons, append_assoc]
    rfl

section Sequences

variable {α β γ : Type} {step : γ → Parser (Turn γ)} {lexemes : β → List Lexeme} {value : β → α}
  {next : Option Lexeme → Prop}

/-- A loop that collects what it reads, one item a turn. -/
theorem iterate_reads (wrap : List α → γ) (between : Option Lexeme → Prop) {items : List β}
    (hitem : ∀ acc, ∀ x ∈ items,
      Reads (step (wrap acc)) (lexemes x) (.again (wrap (acc ++ [value x]))) between)
    (hstart : ∀ x ∈ items, ∃ l, (lexemes x).head? = some l ∧ between (some l))
    (hend : ∀ acc, Reads (step (wrap acc)) [] (.last (wrap acc)) next)
    (hnext : ∀ x, next x → between x) (acc : List α) :
    Reads (iterate (wrap acc) step) (items.flatMap lexemes) (wrap (acc ++ items.map value)) next := by
  induction items generalizing acc with
  | nil =>
    rw [map_nil, append_nil]
    exact reads_iterate_last (hend acc)
  | cons x items ih =>
    have hmore := ih (fun acc y hy => hitem acc y (mem_cons_of_mem _ hy))
      (fun y hy => hstart y (mem_cons_of_mem _ hy)) (acc ++ [value x])
    rw [append_assoc] at hmore
    rw [flatMap_cons]
    obtain ⟨l, hl, -⟩ := hstart x mem_cons_self
    have hnil : lexemes x ≠ [] := fun heq => by rw [heq] at hl; cases hl
    refine reads_iterate_again hnil (hitem acc x mem_cons_self) hmore fun y hy => ?_
    cases items with
    | nil => exact hnext y hy
    | cons z items =>
      obtain ⟨l', hl', hbetween⟩ := hstart z (mem_cons_of_mem _ mem_cons_self)
      rw [flatMap_cons, head?_append, hl']
      exact hbetween

end Sequences

end Teal.Parser
