import Teal.Proofs.Tree.Parser.Accepted

/-! The parser always makes progress. Whatever the tokens are, its position stays in their list and comes to its
end, since every turn of the loops over items and statements takes a token. The levels of nesting are counted as
they are entered and left, and a level that is refused is never left. That one is refused is reported once, as
the last error. -/

namespace Teal.Parser

open Teal.Tree

/-- A position in a list of tokens: what is behind it is what is left, and the token in front of it is the one
that was read last. -/
structure State.At (tokens : List Token) (finish : Span) (s : State) : Prop where
  taken : ∃ ts, tokens = ts ++ s.rest ∧ s.last = ts.getLast?
  finish : s.finish = finish

theorem State.At.advances {tokens : List Token} {finish : Span} {s t : State} (h : s.At tokens finish)
    (hst : s.Advances t) : t.At tokens finish := by
  obtain ⟨ts, htokens, hlast⟩ := h.taken
  obtain ⟨us, hrest, hlast'⟩ := hst.taken
  refine ⟨⟨ts ++ us, ?_, ?_⟩, hst.finish.trans h.finish⟩
  · rw [htokens, hrest, List.append_assoc]
  · rw [hlast', hlast, List.getLast?_append]

/-- The counter of nesting, where there is room for so many more levels: it has the levels that were entered and
not left, and those that were refused. -/
def State.depth (room : Nat) (s : State) : Nat := maxNesting - room + s.lost

/-- A level is entered from a counter below the maximum and left from one that is not zero, or it is refused and
stays in the counter. -/
def Counts {α : Type} (room : Nat) (refused inside : Parser α) (s : State) : Prop :=
  (s.depth room < maxNesting ∧ (nested room refused inside).run s = inside.run s ∧
    s.depth (room - 1) = s.depth room + 1 ∧ s.depth (room - 1) ≤ (inside.run s).2.depth (room - 1) ∧
    (inside.run s).2.depth room = (inside.run s).2.depth (room - 1) - 1) ∨
  (maxNesting ≤ s.depth room ∧ s.depth room < ((nested room refused inside).run s).2.depth room)

theorem nested_counts {α : Type} (refused inside : Parser α) {room : Nat} (hroom : room ≤ maxNesting) (s : State) :
    Counts room refused inside s := by
  by_cases hlost : s.lost < room
  · have hinside := (inside.advances s).lost
    refine .inl ⟨?_, ?_, ?_, ?_, ?_⟩
    · unfold State.depth
      omega
    · simp only [nested, run_bind, look, if_pos hlost]
    all_goals
      unfold State.depth
      omega
  · have hrun : (nested room refused inside).run s = refused.run (loseLevel.run ((complain .tooDeep).run s).2).2 := by
      simp only [nested, run_bind, look, if_neg hlost]
    have hcomplain := ((complain .tooDeep).advances s).lost
    have hrefused := (refused.advances (loseLevel.run ((complain .tooDeep).run s).2).2).lost
    have hlose : (loseLevel.run ((complain .tooDeep).run s).2).2.lost = ((complain .tooDeep).run s).2.lost + 1 := rfl
    refine .inr ?_
    rw [hrun]
    unfold State.depth
    omega

theorem stmtsStep_takes (stmt : Parser (Option Stmt)) :
    TakesTokens (fun s => s.rest = [] ∨ s.next = some (.mark .rbrace)) (stmtsStep stmt) := by
  intro found s
  by_cases hstop : s.rest = [] ∨ s.next = some (.mark .rbrace)
  · refine .inl ⟨hstop, ?_⟩
    have hends : (s.rest.isEmpty || s.next == some (.mark .rbrace)) = true := by simpa using hstop
    simp only [stmtsStep, atEnd, sees, run_bind, look, hends, if_true, run_pure]
  · have hgoes : (s.rest.isEmpty || s.next == some (.mark .rbrace)) = false := by simpa using hstop
    have hlength := recovering_length stmt (pure ()) fun hrest => hstop (.inl hrest)
    refine .inr ?_
    simp only [stmtsStep, atEnd, sees, run_bind, look, hgoes, Bool.false_eq_true, if_false]
    split
    · exact ⟨_, _, rfl, hlength⟩
    · exact ⟨_, _, rfl, hlength⟩

/-! ### Loops

A loop ends with a turn that takes no token, whatever that turn says. No loop of the parser ends so: where a turn
says that another one follows, it took a token. -/

/-- A turn that is not the last one takes a token. -/
def Goes {α : Type} (p : Parser (Turn α)) : Prop :=
  ∀ s b, (p.run s).1 = .again b → (p.run s).2.rest.length < s.rest.length

section Loops

variable {α β : Type} {step : α → Parser (Turn α)} {s : State}

/-- Where all turns do, the loop is left by a turn that says it is the last one. -/
theorem exists_last_of_goes (hstep : ∀ a, Goes (step a)) (a : α) (s : State) :
    ∃ b t, (step b).run t = (.last (iterateFrom step a s).1, (iterateFrom step a s).2) := by
  fun_induction iterateFrom step a s with
  | case1 a s _ _ hlast => exact ⟨a, s, hlast⟩
  | case2 _ _ _ _ _ _ ih => exact ih
  | case3 a s b t hagain hidle =>
    have hless := hstep a s b
    rw [hagain] at hless
    exact absurd (hless rfl) hidle

theorem goes_last (a : α) : Goes (pure (.last a)) := by
  intro s b h
  cases h

theorem goes_look {f : β → Parser (Turn α)} (g : State → β) (h : ∀ x, Goes (f x)) : Goes (look g >>= f) :=
  fun s => h (g s) s

theorem goes_bind {p : Parser β} {f : β → Parser (Turn α)} (h : ∀ x, Goes (f x)) : Goes (p >>= f) :=
  fun s b hs => Nat.lt_of_lt_of_le (h _ _ b hs) (p.advances s).length_le

theorem length_behind_advance (p : Parser β) (hnext : s.next ≠ none) :
    (p.run (advance.run s).2).2.rest.length < s.rest.length := by
  have hpos : 0 < s.rest.length := List.length_pos_iff.mpr fun hnil => hnext (by simp [State.next, hnil])
  have hrest := (p.advances (advance.run s).2).length_le
  rw [advance_rest, List.length_tail] at hrest
  exact Nat.lt_of_le_of_lt hrest (Nat.sub_one_lt_of_lt hpos)

theorem goes_peek {f : Option Lexeme → Parser (Turn α)}
    (h : ∀ l, Goes (f l) ∨ l ≠ none ∧ ∃ p, f l = advance >>= fun _ => p) : Goes (peek >>= f) := by
  intro s b hs
  rcases h s.next with hgoes | ⟨hnext, p, hp⟩
  · exact hgoes s b hs
  · show ((f s.next).run s).2.rest.length < s.rest.length
    rw [hp]
    exact length_behind_advance p hnext

theorem goes_eat (l : Lexeme) {p q : Parser (Turn α)} (hq : Goes q) :
    Goes (do if ← eat l then p else q) := by
  intro s b
  cases hl : s.next == some l with
  | true =>
    intro _
    simp only [eat, sees, look, run_bind, hl, if_true, run_pure]
    exact length_behind_advance p fun hnone => by simp [hnone] at hl
  | false =>
    simp only [eat, sees, look, run_bind, hl, Bool.false_eq_true, if_false, run_pure]
    exact hq s b

theorem goes_of_takesTokens {stops : State → Prop} {step : List α → Parser (Turn (List α))}
    (h : TakesTokens stops step) (found : List α) : Goes (step found) := by
  intro s b hs
  obtain ⟨_, hlast⟩ | ⟨more, t, hagain, hless⟩ := h found s
  · rw [hlast] at hs
    cases hs
  · rw [hagain]
    exact hless

end Loops

theorem listedStep_goes {α : Type} (item : Parser α) (items : List α) : Goes (listedStep item items) := by
  refine goes_look _ fun ended => goes_look _ fun closed => ?_
  split
  · exact goes_last _
  · exact goes_bind fun _ => goes_eat _ (goes_last _)

theorem skipStep_goes (u : Unit) : Goes (skipStep u) := by
  refine goes_peek fun l => ?_
  split
  · exact .inl (goes_last _)
  · exact .inl (goes_last _)
  · exact .inr ⟨by simp, _, rfl⟩
  · exact .inr ⟨by simp, _, rfl⟩

theorem chainStep_goes (tier : Tier) (operand : Parser Expr) (lhs : Expr) : Goes (chainStep tier operand lhs) := by
  refine goes_peek fun l => ?_
  split
  · split
    · exact .inr ⟨by simp, _, rfl⟩
    · exact .inl (goes_last _)
  · exact .inl (goes_last _)

theorem namesStep_goes (names : List Ident) : Goes (namesStep names) := goes_eat _ (goes_last _)

theorem targetsStep_goes (room : Nat) (targets : Option (List Target)) : Goes (targetsStep room targets) := by
  cases targets with
  | none => exact goes_last _
  | some targets => exact goes_eat _ (goes_last _)

theorem clausesStep_goes (room : Nat) (block : Parser Block) (found : List Clause × Option Block) :
    Goes (clausesStep room block found) :=
  goes_eat _ (goes_last _)

theorem partsStep_goes (parts : List String) : Goes (partsStep parts) := goes_eat _ (goes_last _)

theorem importsStep_goes (found : List (Import × Span)) : Goes (importsStep found) :=
  goes_look _ fun _ => goes_eat _ (goes_last _)

theorem stmtsStep_goes (stmt : Parser (Option Stmt)) (found : List Stmt) : Goes (stmtsStep stmt found) :=
  goes_of_takesTokens (stmtsStep_takes stmt) found

theorem itemsStep_goes (room : Nat) (found : List Item) : Goes (itemsStep room found) :=
  goes_of_takesTokens (itemsStep_takes room) found

theorem file_reported (tokens : List Token) (finish : Span) :
    ∃ mute, Reported mute (file.run (.start tokens finish)).2.diagnostics :=
  ⟨_, (fileWithin_shape maxNesting rfl finish finish).2.reported⟩

end Teal.Parser

namespace Teal.Tree

open Teal.Parser

/-- From any tokens the parser comes to their end and is at a position in their list all the time. Levels of
nesting are only left where they were entered. A turn of the loop over items, and of that over the statements of a
block, takes a token or is the last one. The result is an error if and only if an error was recorded; at most one
of these is that nesting goes too deep, and it is the last one. -/
theorem Parsed.ofTokens_progress (tokens : List Token) (finish : Span) :
    let s := (file.run (.start tokens finish)).2
    ((State.start tokens finish).At tokens finish ∧
      (∀ {α : Type} (p : Parser α) (t : State), t.At tokens finish → (p.run t).2.At tokens finish) ∧
      s.rest = [] ∧ s.last = tokens.getLast?) ∧
    (∀ {α : Type} (refused inside : Parser α) (room : Nat) (t : State), room ≤ maxNesting →
      Counts room refused inside t) ∧
    (∀ room, items room = iterate [] (itemsStep room) ∧ TakesTokens (·.rest = []) (itemsStep room)) ∧
    (∀ room stmt, blockOver room stmt =
        nested room (do let span ← here; skipAll; return ⟨span, []⟩) (do
          let start ← here
          expect (.mark .lbrace)
          let stmts ← iterate [] (stmtsStep stmt)
          let finish ← here
          expect (.mark .rbrace)
          return ⟨start.merge finish, stmts⟩) ∧
      TakesTokens (fun t => t.rest = [] ∨ t.next = some (.mark .rbrace)) (stmtsStep stmt)) ∧
    ((∃ ds, Parsed.ofTokens tokens finish = .error ds) ↔ ∃ d ∈ s.diagnostics, d.isFatal = true) ∧
    s.diagnostics.countP reportsDepth ≤ 1 ∧
    ((∃ d ∈ s.diagnostics, reportsDepth d = true) →
      (s.diagnostics.filter (·.isFatal)).getLast?.any reportsDepth = true) := by
  have hstart : (State.start tokens finish).At tokens finish := ⟨⟨[], rfl, rfl⟩, rfl⟩
  have hrest : (file.run (.start tokens finish)).2.rest = [] :=
    itemsStep_rest maxNesting [] (imports.run (.start tokens finish)).2
  obtain ⟨mute, hreported⟩ := file_reported tokens finish
  refine ⟨⟨hstart, fun p t ht => ht.advances (p.advances t), hrest, ?_⟩, ?_, ?_, ?_, ?_, ?_, ?_⟩
  · obtain ⟨⟨ts, htokens, hlast⟩, -⟩ := hstart.advances (file.advances (.start tokens finish))
    rw [hrest, List.append_nil] at htokens
    rw [hlast, htokens]
  · exact fun refused inside room t hroom => nested_counts refused inside hroom t
  · exact fun room => ⟨rfl, itemsStep_takes room⟩
  · exact fun room stmt => ⟨rfl, stmtsStep_takes stmt⟩
  · simp only [Parsed.ofTokens]
    split
    · next hfatal => simpa using hfatal
    · next hfatal => simpa using hfatal
  · rw [hreported.once]
    exact mute.toNat_le
  · intro hdeep
    refine hreported.last ?_
    have hpos := List.countP_pos_iff.mpr hdeep
    rw [hreported.once] at hpos
    cases mute with
    | true => rfl
    | false => cases hpos

end Teal.Tree
