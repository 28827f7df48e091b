import Mathlib.Tactic.Simps.Basic
import Teal.Proofs.Tree.Layout
import Teal.Proofs.Tree.Parser.RoundTrip

/-! What a parser takes when it finds no fault. A parser takes tokens that are pieces of a tree and makes
remarks; whenever it ends without errors, these stand to its value in a given relation. As long as syntax
errors are reported, whoever complains fails, so only the branches that take what they expect count. A second
parser, with less room, does the same unless it goes too deep. Each way to combine parsers keeps this. -/

namespace Teal.Parser

open Teal.Tree List

/-- It is on record that nesting went too deep. -/
def State.Deep (s : State) : Prop := ∃ span, Fault.tooDeep.toDiagnostic span ∈ s.diagnostics

theorem State.Deep.advances {s t : State} (h : s.Deep) (hst : s.Advances t) : t.Deep := by
  obtain ⟨span, hmem⟩ := h
  exact ⟨span, hst.diagnostics.subset hmem⟩

theorem State.Advances.errors_le {s t : State} (h : s.Advances t) : s.errors ≤ t.errors :=
  h.diagnostics.sublist.countP_le

/-! ### What was taken -/

/-- Tokens, of those there are, that are pieces in turn, and the remarks made meanwhile. -/
structure Taken (tokens : List Token) where
  pieces : List Piece
  taken : List Token
  notes : List Diagnostic
  run : Run (Laid anyFreedom) pieces taken

theorem start_append {ts us : List Token} {start : Span} (h : ts.head?.map Token.span = some start) :
    (ts ++ us).head?.map Token.span = some start := by
  obtain ⟨t, ht, rfl⟩ := Option.map_eq_some_iff.mp h
  rw [head?_append, ht]
  rfl

namespace Taken

variable {tokens : List Token}

@[simps]
def nil : Taken tokens := ⟨[], [], [], .nil⟩

@[simps]
def append (w u : Taken tokens) : Taken tokens :=
  ⟨w.pieces ++ u.pieces, w.taken ++ u.taken, w.notes ++ u.notes, w.run.append u.run⟩

@[simps]
def token (w : Taken tokens) (t : Token) : Taken tokens :=
  ⟨w.pieces ++ [.lexeme t.lexeme], w.taken ++ [t], w.notes, w.run.append (.lexeme t .nil)⟩

@[simps]
def node (w : Taken tokens) {n : Node} {ts : List Token} (h : Laid anyFreedom n ts)
    (notes : List Diagnostic) : Taken tokens :=
  ⟨w.pieces ++ [.node n], w.taken ++ ts, w.notes ++ notes, w.run.append (.single h)⟩

theorem laid (w : Taken tokens) {n : Node} (hform : Form anyFreedom n w.pieces)
    (hspan : Ordered w.taken → n.span = cover w.taken) : Laid anyFreedom n w.taken :=
  .mk hform w.run hspan

/-- A node whose place is that from the first token to the last. -/
theorem laid_of_ends (w : Taken tokens) {n : Node} {start : Span} {t : Token}
    (hform : Form anyFreedom n w.pieces) (hlast : w.taken.getLast? = some t)
    (hstart : w.taken.head?.map Token.span = some start) (hspan : n.span = start.merge t.span) :
    Laid anyFreedom n w.taken := by
  obtain ⟨u, hu, rfl⟩ := Option.map_eq_some_iff.mp hstart
  exact w.laid hform fun h => hspan.trans (cover_of_ends hu hlast h)

end Taken

/-- From a state where some tokens were taken and some remarks made, more have been. -/
structure State.Has {tokens : List Token} (before : List Token) (said : List Diagnostic) (w : Taken tokens)
    (s : State) : Prop where
  tokens : tokens = before ++ (w.taken ++ s.rest)
  last : s.last = (before ++ w.taken).getLast?
  diagnostics : s.diagnostics = said ++ w.notes
  mute : s.mute = false

abbrev Account (tokens : List Token) (α : Type) := α → Taken tokens → Prop

/-- From where something was taken and the next token meets a condition, and if there are no errors in the
end, the second parser takes more as an account of its value says, and the first one goes too deep or does
the same. -/
def Spells {α : Type} {tokens : List Token} (w : Taken tokens) (next : Option Token → Prop) (p q : Parser α)
    (R : Account tokens α) : Prop :=
  ∀ before said s, State.Has before said w s → next s.rest.head? → (q.run s).2.errors = 0 →
    ((p.run s).2.Deep ∨ p.run s = q.run s) ∧ ∃ v, R (q.run s).1 v ∧ (q.run s).2.Has before said v

/-- The same from where nothing was taken. -/
abbrev Takes {α : Type} (tokens : List Token) (next : Option Token → Prop) (p q : Parser α) (R : Account tokens α) :
    Prop := Spells .nil next p q R

/-- What an optional value is: there, and with an account. -/
def Found {α : Type} {tokens : List Token} (R : Account tokens α) (found : Option α) (w : Taken tokens) : Prop :=
  ∃ a, found = some a ∧ R a w

/-- What a turn of a loop yields: another turn follows only if it took tokens. -/
def Turns {α : Type} {tokens : List Token} (I R : Account tokens α) (w : Taken tokens) : Account tokens (Turn α)
  | .again a, v => w.taken.length < v.taken.length ∧ I a v
  | .last a, v => R a v

section Rules

variable {α β : Type} {tokens : List Token} {w : Taken tokens} {next : Option Token → Prop} {p q : Parser α}
  {f g : α → Parser β} {R : Account tokens α} {T : Account tokens β} {l : Lexeme}

variable {a : α} {R' : Account tokens α} {before : List Token} {said : List Diagnostic}
  {v : Taken tokens} {s : State} {fault : Fault} {step : α → Parser (Turn α)}

theorem spells_pure (h : R a w) : Spells w next (pure a) (pure a) R :=
  fun _ _ _ hs _ _ => ⟨.inr rfl, w, h, hs⟩

theorem spells_imp (h : Spells w next p q R) (himp : ∀ a v, R a v → R' a v) : Spells w next p q R' := by
  intro before said s hs hnext hend
  obtain ⟨hless, v, hR, hhas⟩ := h before said s hs hnext hend
  exact ⟨hless, v, himp _ _ hR, hhas⟩

theorem spells_next (h : Spells w anything p q R) : Spells w next p q R :=
  fun before said s hs _ hend => h before said s hs trivial hend

theorem State.Has.as (h : s.Has before said w) (htaken : v.taken = w.taken)
    (hnotes : v.notes = w.notes) : s.Has before said v :=
  ⟨htaken ▸ h.tokens, htaken ▸ h.last, hnotes ▸ h.diagnostics, h.mute⟩

/-- What was taken may be seen as other pieces. -/
theorem spells_as (h : Spells v next p q R) (htaken : v.taken = w.taken) (hnotes : v.notes = w.notes) :
    Spells w next p q R :=
  fun before said s hs => h before said s (hs.as htaken hnotes)

theorem spells_retake (h : Spells w next p q R)
    (himp : ∀ a v, R a v → ∃ v', R' a v' ∧ v'.taken = v.taken ∧ v'.notes = v.notes) :
    Spells w next p q R' := by
  intro before said s hs hnext hend
  obtain ⟨hless, v, hR, hhas⟩ := h before said s hs hnext hend
  obtain ⟨v', hR', htaken, hnotes⟩ := himp _ v hR
  exact ⟨hless, v', hR', hhas.as htaken hnotes⟩

theorem spells_bind (hp : Spells w next p q R)
    (hf : ∀ a v, R a v → Spells v anything (f a) (g a) T) : Spells w next (p >>= f) (q >>= g) T := by
  intro before said s hs hnext hend
  have hle := ((g (q.run s).1).advances (q.run s).2).errors_le
  obtain ⟨hless, v, hR, hhas⟩ := hp before said s hs hnext (Nat.le_zero.mp (hend ▸ hle))
  obtain ⟨hless', hT⟩ := hf _ v hR before said _ hhas trivial hend
  refine ⟨?_, hT⟩
  rcases hless with hdeep | hsame
  · exact .inl (hdeep.advances ((f _).advances _))
  · rw [run_bind, hsame]
    exact hless'

/-- A parser that takes nothing more. -/
theorem spells_end (hp : Spells w next p q R) {b : α → β} (h : ∀ a v, R a v → T (b a) v) :
    Spells w next (p >>= fun a => pure (b a)) (q >>= fun a => pure (b a)) T :=
  spells_bind hp fun a v ha => spells_pure (h a v ha)

/-- What a parser takes from the start it takes from anywhere. -/
theorem spells_sub (hp : Spells .nil next p q R) :
    Spells w next p q fun a v => ∃ u, R a u ∧ v = w.append u := by
  intro before said s hs hnext hend
  have hstart : State.Has (before ++ w.taken) (said ++ w.notes) (.nil : Taken tokens) s :=
    ⟨by rw [append_assoc]; exact hs.tokens, by simpa using hs.last,
      by simpa using hs.diagnostics, hs.mute⟩
  obtain ⟨hless, u, hR, hhas⟩ := hp _ _ s hstart hnext hend
  refine ⟨hless, w.append u, ⟨u, hR, rfl⟩, ?_, ?_, ?_, hhas.mute⟩
  · simpa using hhas.tokens
  · simpa using hhas.last
  · simpa using hhas.diagnostics

/-- A part that a parser takes from the start is a piece of what is taken. -/
theorem spells_node {n : α → Node} (hp : Spells .nil next p q R)
    (hn : ∀ a u, R a u → Laid anyFreedom (n a) u.taken)
    (hf : ∀ a u (h : R a u), Spells (w.node (hn a u h) u.notes) anything (f a) (g a) T) :
    Spells w next (p >>= f) (q >>= g) T := by
  refine spells_bind (spells_sub hp) ?_
  rintro a _ ⟨u, hu, rfl⟩
  exact spells_as (hf a u hu) rfl rfl

theorem spells_look {r : State → α} (h : ∀ a, Spells w next (f a) (g a) T) :
    Spells w next (look r >>= f) (look r >>= g) T :=
  fun before said s hs hnext hend => h (r s) before said s hs hnext hend

def Starts (next : Option Token → Prop) (start : Span) (x : Option Token) : Prop :=
  next x ∧ ∀ t, x = some t → t.span = start

theorem spells_here {f g : Span → Parser β} (h : ∀ start, Spells w (Starts next start) (f start) (g start) T) :
    Spells w next (here >>= f) (here >>= g) T := by
  intro before said s hs hnext hend
  refine h s.here before said s hs ⟨hnext, fun t ht => ?_⟩ hend
  obtain ⟨rest, hrest⟩ := head?_eq_some_iff.mp ht
  rw [State.here, hrest]

theorem spells_peek {f g : Option Lexeme → Parser β}
    (h : ∀ x, next x → Spells w (· = x) (f (x.map Token.lexeme)) (g (x.map Token.lexeme)) T) :
    Spells w next (peek >>= f) (peek >>= g) T :=
  fun before said s hs hnext hend => h s.rest.head? hnext before said s hs rfl hend

/-- The last token is behind. -/
theorem spells_behind {f g : Span → Parser β} (hne : w.taken ≠ [])
    (h : ∀ t, w.taken.getLast? = some t → Spells w next (f t.span) (g t.span) T) :
    Spells w next (behind >>= f) (behind >>= g) T := by
  intro before said s hs hnext hend
  obtain ⟨-, t, -, ht⟩ := exists_ends hne
  have hbehind : s.behind = t.span := by
    rw [State.behind, hs.last, getLast?_append, ht]
    rfl
  have hrun (f : Span → Parser β) : (behind >>= f).run s = (f t.span).run s := by
    rw [← hbehind]
    rfl
  rw [hrun] at hend
  rw [hrun, hrun]
  exact h t ht before said s hs hnext hend

/-- A node that starts with the first token ends with the last. -/
theorem spells_close {f g : Span → Parser β} {start : Span} (hstart : w.taken.head?.map Token.span = some start)
    (h : ∀ t : Token, (∀ n, Form anyFreedom n w.pieces → n.span = start.merge t.span →
      Laid anyFreedom n w.taken) → Spells w next (f t.span) (g t.span) T) :
    Spells w next (behind >>= f) (behind >>= g) T := by
  refine spells_behind (fun hnil => ?_) fun t ht => h t fun n hform => w.laid_of_ends hform ht hstart
  rw [hnil] at hstart
  cases hstart

theorem spells_ite {c : Prop} [Decidable c] {p' q' : Parser α} (hp : Spells w next p q R)
    (hq : Spells w next p' q' R) : Spells w next (if c then p else p') (if c then q else q') R := by
  split
  · exact hp
  · exact hq

/-- The first token taken is the next one. -/
theorem spells_head (h : Spells .nil next p q R) :
    Spells .nil next p q fun a v => R a v ∧ ∀ t, v.taken.head? = some t → next (some t) := by
  intro before said s hs hnext hend
  obtain ⟨hless, v, hR, hhas⟩ := h before said s hs hnext hend
  refine ⟨hless, v, ⟨hR, fun t ht => ?_⟩, hhas⟩
  have hrest : s.rest = v.taken ++ (q.run s).2.rest :=
    append_cancel_left (hs.tokens.symm.trans hhas.tokens)
  rw [hrest, head?_append, ht] at hnext
  exact hnext

/-- What is taken stands among the tokens. -/
theorem spells_within (h : Spells w next p q R) :
    Spells w next p q fun a v => R a v ∧ v.taken <:+: tokens := by
  intro before said s hs hnext hend
  obtain ⟨hless, v, hR, hhas⟩ := h before said s hs hnext hend
  exact ⟨hless, v, ⟨hR, before, (q.run s).2.rest, by rw [append_assoc]; exact hhas.tokens.symm⟩, hhas⟩

/-! ### Tokens -/

theorem spells_advance {t : Token} {f g : Unit → Parser β} (h : Spells (w.token t) anything (f ()) (g ()) T) :
    Spells w (· = some t) (advance >>= f) (advance >>= g) T := by
  intro before said s hs hnext hend
  obtain ⟨rest, hrest⟩ := head?_eq_some_iff.mp hnext
  have hrun : advance.run s = ((), { s with rest := rest, last := some t }) := by
    simp only [advance, hrest]
  rw [run_bind, hrun] at hend
  rw [run_bind, run_bind, hrun]
  refine h before said _ ⟨?_, ?_, hs.diagnostics, hs.mute⟩ trivial hend
  · simpa [hrest] using hs.tokens
  · simp [← append_assoc]

theorem spells_eat {f g : Bool → Parser β}
    (hyes : ∀ span, next (some ⟨l, span⟩) → Spells (w.token ⟨l, span⟩) anything (f true) (g true) T)
    (hno : Spells w next (f false) (g false) T) : Spells w next (eat l >>= f) (eat l >>= g) T := by
  intro before said s hs hnext hend
  have hrun (f : Bool → Parser β) : (eat l >>= f).run s =
      if s.next == some l then (advance >>= fun _ => f true).run s else (f false).run s := by
    simp only [eat, sees, look, run_bind]
    cases s.next == some l <;> rfl
  rw [hrun] at hend
  rw [hrun, hrun]
  split at hend
  · next hsees =>
    rw [if_pos hsees, if_pos hsees]
    obtain ⟨⟨_, span⟩, ht, rfl⟩ := Option.map_eq_some_iff.mp (eq_of_beq hsees)
    exact spells_advance (hyes span (ht ▸ hnext)) before said s hs ht hend
  · next hsees =>
    rw [if_neg hsees, if_neg hsees]
    exact hno before said s hs hnext hend

/-- As long as syntax errors are reported, a complaint is one. -/
theorem complainAt_errors (hs : s.mute = false) (span : Span) (fault : Fault) :
    ((complainAt span fault).run s).2.diagnostics = s.diagnostics ++ [fault.toDiagnostic span] := by
  simp only [complainAt, look, run_bind, hs, Bool.not_false, if_true, record]

theorem spells_complainAt (span : Span) {p : Parser β} {g : Unit → Parser β} :
    Spells w next p (complainAt span fault >>= g) T := by
  intro before said s hs _ hend
  have hle := ((g ()).advances ((complainAt span fault).run s).2).errors_le
  have hnone : ((complainAt span fault).run s).2.errors = 0 := Nat.le_zero.mp (hend ▸ hle)
  rw [State.errors, complainAt_errors hs.mute, countP_append] at hnone
  cases (Nat.add_eq_zero_iff.mp hnone).2

theorem spells_complain {p : Parser β} {g : Unit → Parser β} : Spells w next p (complain fault >>= g) T :=
  fun before said s hs hnext hend => spells_complainAt s.here (p := p) before said s hs hnext hend

theorem spells_expect {f g : Unit → Parser β}
    (h : ∀ span, next (some ⟨l, span⟩) → Spells (w.token ⟨l, span⟩) anything (f ()) (g ()) T) :
    Spells w next (expect l >>= f) (expect l >>= g) T := by
  have hexpect : Spells w next (expect l) (expect l) fun _ v =>
      ∃ span, next (some ⟨l, span⟩) ∧ v = w.token ⟨l, span⟩ :=
    spells_eat (fun span hspan => spells_pure ⟨span, hspan, rfl⟩)
      (spells_look fun other => spells_complain (g := pure))
  refine spells_bind hexpect ?_
  rintro _ _ ⟨span, hspan, rfl⟩
  exact h span hspan

theorem spells_expectIdent {f g : Ident → Parser β}
    (h : ∀ name, Spells (w.node (Laid.word _ name) []) anything (f name) (g name) T) :
    Spells w next (expectIdent >>= f) (expectIdent >>= g) T := by
  have hident : Spells w next expectIdent expectIdent fun name v => v = w.token ⟨.ident name.text, name.span⟩ := by
    refine spells_here fun start => spells_peek fun x hx => ?_
    cases x with
    | none => exact spells_complain
    | some t =>
      obtain ⟨l, span⟩ := t
      obtain rfl : span = start := hx.2 _ rfl
      cases l with
      | ident name => exact spells_advance (spells_pure rfl)
      | _ => exact spells_complain
  refine spells_bind hident ?_
  rintro name _ rfl
  exact spells_as (h name) rfl (append_nil _)

/-! ### Loops, nesting and recovery -/

theorem deep_iterateFrom (h : ((step a).run s).2.Deep) : (iterateFrom step a s).2.Deep := by
  rw [iterateFrom]
  split
  · next hrun => rwa [hrun] at h
  · next b t hrun =>
    rw [hrun] at h
    split
    · exact h.advances (iterateFrom_advances step b t)
    · exact h

/-- The more was taken, the less is left. -/
theorem State.Has.length_lt {w : Taken tokens} {t : State} (hs : s.Has before said w)
    (ht : t.Has before said v) (hless : w.taken.length < v.taken.length) : t.rest.length < s.rest.length := by
  have hlength := congrArg List.length (hs.tokens.symm.trans ht.tokens)
  simp only [length_append] at hlength
  omega

theorem spells_iterate {step' : α → Parser (Turn α)} {I : Account tokens α} (h : I a w)
    (hstep : ∀ a w, I a w → Spells w anything (step a) (step' a) (Turns I R w)) :
    Spells w next (iterate a step) (iterate a step') R := by
  intro before said s hs hnext hend
  clear hnext
  show ((iterateFrom step a s).2.Deep ∨ iterateFrom step a s = iterateFrom step' a s) ∧
    ∃ v, R (iterateFrom step' a s).1 v ∧ (iterateFrom step' a s).2.Has before said v
  replace hend : (iterateFrom step' a s).2.errors = 0 := hend
  fun_induction iterateFrom step' a s generalizing w with
  | case1 a s b t hrun =>
    have hturn := hstep a w h before said s hs trivial
    rw [hrun] at hturn
    obtain ⟨hless, htaken⟩ := hturn hend
    exact ⟨hless.imp deep_iterateFrom iterateFrom_last, htaken⟩
  | case2 a s b t hrun hlength ih =>
    have hle := (iterateFrom_advances step' b t).errors_le
    have hturn := hstep a w h before said s hs trivial
    rw [hrun] at hturn
    obtain ⟨hless, v, ⟨_, hinv⟩, hhas⟩ := hturn (Nat.le_zero.mp (hend ▸ hle))
    obtain ⟨hless', hR⟩ := ih hinv hhas hend
    refine ⟨?_, hR⟩
    rcases hless with hdeep | hsame
    · exact .inl (deep_iterateFrom hdeep)
    · rw [iterateFrom_again hsame hlength]
      exact hless'
  | case3 a s b t hrun hlength =>
    -- A turn that takes no token would be the last one, but none that asks for another does so.
    have hturn := hstep a w h before said s hs trivial
    rw [hrun] at hturn
    obtain ⟨-, v, ⟨hmore, _⟩, hhas⟩ := hturn hend
    exact absurd (hs.length_lt hhas hmore) hlength

/-- A level further in. Where the parser with less room has none, nothing is asked of what it would read. -/
theorem nested_spells {room room' : Nat} {refused refused' inside : Parser α}
    (h : 0 < room' → Spells w next p q R) (hinside : 0 < room → p = inside) :
    Spells w next (nested room refused inside) (nested room' refused' q) R := by
  intro before said s hs hnext hend
  have hrun (n : Nat) (refused inside : Parser α) : (nested n refused inside).run s =
      (if s.lost < n then inside else complain .tooDeep >>= fun _ => loseLevel >>= fun _ => refused).run s :=
    rfl
  rw [hrun] at hend
  rw [hrun, hrun]
  by_cases hroom : s.lost < room'
  · rw [if_pos hroom] at hend ⊢
    obtain ⟨hless, htaken⟩ := h (Nat.zero_lt_of_lt hroom) before said s hs hnext hend
    refine ⟨?_, htaken⟩
    split
    · next hfits => exact hinside (Nat.zero_lt_of_lt hfits) ▸ hless
    · refine .inl ?_
      have hdeep : ((complain .tooDeep).run s).2.Deep := by
        refine ⟨s.here, ?_⟩
        rw [complain, run_bind]
        exact complainAt_errors hs.mute s.here .tooDeep ▸ mem_append_right _ mem_cons_self
      exact hdeep.advances ((loseLevel >>= fun _ => refused).advances _)
  · rw [if_neg hroom] at hend ⊢
    exact spells_complain before said s hs hnext hend

/-- What is done after a step that met so many errors and left so many tokens. -/
def recovered (errors left : Nat) (afterwards : Parser Unit) (a : α) : Parser α := do
  if errors < (← look (·.errors)) then
    synchronize
    afterwards
  if (← look (·.rest.length)) == left then advance
  return a

/-- Where there are no errors there is nothing to recover from. -/
theorem recovering_spells {step step' : Parser α} {afterwards : Parser Unit}
    (h : Spells w next step step' R) (hR : ∀ a v, R a v → w.taken.length < v.taken.length) :
    Spells w next (recovering step afterwards) (recovering step' afterwards) R := by
  intro before said s hs hnext hend
  have hrun (step : Parser α) : (recovering step afterwards).run s =
      (recovered s.errors s.rest.length afterwards (step.run s).1).run (step.run s).2 := rfl
  have hle :=
    ((recovered s.errors s.rest.length afterwards (step'.run s).1).advances (step'.run s).2).errors_le
  rw [← hrun, hend] at hle
  obtain ⟨hless, v, hv, hhas⟩ := h before said s hs hnext (Nat.le_zero.mp hle)
  have hfew : ¬s.errors < (step'.run s).2.errors := by omega
  have hlength : ((step'.run s).2.rest.length == s.rest.length) = false :=
    beq_eq_false_iff_ne.mpr (Nat.ne_of_lt (hs.length_lt hhas (hR _ _ hv)))
  have hsame : (recovering step' afterwards).run s = step'.run s := by
    simp only [hrun, recovered, run_bind, look, hfew, hlength, if_false, Bool.false_eq_true, run_pure]
  rw [hsame]
  refine ⟨hless.imp (fun hdeep => ?_) fun heq => ?_, v, hv, hhas⟩
  · rw [hrun]
    exact hdeep.advances ((recovered _ _ _ _).advances _)
  · rw [← hsame, hrun, hrun, heq]

end Rules

end Teal.Parser
