import Teal.Proofs.Assembly.Code
import Teal.Proofs.Assembly.LabelText

/-! Which labels a piece of code defines and where it may jump. The *trail* of a label inside of a body is
the path of its context and then the number of its node. All labels of a piece have trails that extend
the path of the piece by one of its own numbers, so that pieces with different numbers share no label,
however the bodies that stand in place of calls are nested. A piece jumps to labels of its own, to the
end of the body it stands in and to the end of the loop it stands in. -/

namespace Teal.Assembly

open List
open Program (Expr Stmt Function exprsLabels blockLabels)

def Line.label? : Line → Option Label
  | .label l => some l
  | _ => none

/-- The label that a line may go on at. -/
def Line.jump? : Line → Option Label
  | .branch l | .branchZero l => some l
  | _ => none

/-- The label of the subroutine that a line calls. -/
def Line.call? : Line → Option Label
  | .call l => some l
  | _ => none

def defined (lines : List Line) : List Label := lines.filterMap Line.label?

def jumps (lines : List Line) : List Label := lines.filterMap Line.jump?

def calls (lines : List Line) : List Label := lines.filterMap Line.call?

@[simp, grind =] theorem defined_nil : defined [] = [] := rfl

@[simp, grind =] theorem jumps_nil : jumps [] = [] := rfl

@[simp, grind =] theorem calls_nil : calls [] = [] := rfl

variable (a b : List Line)

@[simp, grind =] theorem defined_append : defined (a ++ b) = defined a ++ defined b :=
  filterMap_append

@[simp, grind =] theorem jumps_append : jumps (a ++ b) = jumps a ++ jumps b :=
  filterMap_append

@[simp, grind =] theorem calls_append : calls (a ++ b) = calls a ++ calls b :=
  filterMap_append

attribute [simp, grind =] Line.label? Line.jump? Line.call?

@[simp, grind =] theorem defined_cons (line : Line) (rest : List Line) :
    defined (line :: rest) = line.label?.toList ++ defined rest := by
  cases line <;> rfl

@[simp, grind =] theorem jumps_cons (line : Line) (rest : List Line) :
    jumps (line :: rest) = line.jump?.toList ++ jumps rest := by
  cases line <;> rfl

@[simp, grind =] theorem calls_cons (line : Line) (rest : List Line) :
    calls (line :: rest) = line.call?.toList ++ calls rest := by
  cases line <;> rfl

variable {l : Label} {line : Line} {p : Program} {ls : List Line}

theorem mem_defined {lines : List Line} : l ∈ defined lines ↔ .label l ∈ lines := by
  rw [defined, mem_filterMap]
  constructor
  · rintro ⟨line, hmem, heq⟩
    cases line <;> cases heq
    exact hmem
  · exact fun h => ⟨_, h, rfl⟩

/-- Lines that neither define nor name a label. -/
structure Line.Plain (line : Line) : Prop where
  label : line.label? = none
  jump : line.jump? = none
  call : line.call? = none

/-! ### Trails -/

/-- The path of the context of a label inside of a body and the number of its node. -/
def Label.trail : Label → List Nat
  | .inBody mark path => path ++ mark.numbers
  | _ => []

/-- The label belongs to one of the numbered nodes of a context. -/
def Label.Below (path numbers : List Nat) (l : Label) : Prop :=
  ∃ n ∈ numbers, path ++ [n] <+: l.trail

namespace Label.Below

variable {path numbers numbers' : List Nat} {l : Label}

theorem mono (h : l.Below path numbers) (hsub : ∀ n ∈ numbers, n ∈ numbers') : l.Below path numbers' := by
  obtain ⟨n, hn, htrail⟩ := h
  exact ⟨n, hsub n hn, htrail⟩

/-- What belongs to nodes of a body belongs to the call that the body stands for. -/
theorem outward {site : Nat} (h : l.Below (path ++ [site]) numbers) : l.Below path [site] := by
  obtain ⟨n, _, htrail⟩ := h
  exact ⟨site, mem_singleton_self site, (prefix_append _ _).trans htrail⟩

theorem common (h : l.Below path numbers) (h' : l.Below path numbers') : ∃ n ∈ numbers, n ∈ numbers' := by
  obtain ⟨n, hn, htrail⟩ := h
  obtain ⟨n', hn', htrail'⟩ := h'
  have heq : path ++ [n] = path ++ [n'] :=
    (prefix_of_prefix_length_le htrail htrail' (by simp)).eq_of_length (by simp)
  have hsame : n = n' := singleton_inj.mp (append_cancel_left heq)
  exact ⟨n, hn, hsame ▸ hn'⟩

theorem length_lt (h : l.Below path numbers) : path.length < l.trail.length := by
  obtain ⟨n, _, htrail⟩ := h
  have hlength := htrail.length_le
  rw [length_append, length_singleton] at hlength
  exact hlength

theorem trail_ne_nil (h : l.Below path numbers) : l.trail ≠ [] :=
  ne_nil_of_length_pos (Nat.zero_lt_of_lt h.length_lt)

end Label.Below

theorem Context.label_below (c : Context) {mark : Mark} {n : Nat} (h : mark.numbers = [n])
    {numbers : List Nat} (hn : n ∈ numbers) : (c.label mark).Below c.path numbers := by
  have htrail : (c.label mark).trail = c.path ++ [n] := by
    rw [Context.label, Label.trail, h]
  exact ⟨n, hn, htrail ▸ prefix_refl _⟩

/-! ### Pieces of code -/

/-- The function is emitted once, as a subroutine. -/
def HasSubroutine (f : Function) : Prop := f.inline = false ∧ f.isEntry = false

def Callable (p : Program) (l : Label) : Prop :=
  ∃ f ∈ p.functions, HasSubroutine f ∧ l = .subroutine f.name.text

/-- Labels outside of a piece that code in a context may jump to. -/
def Context.Out (c : Context) (l : Label) : Prop := c.exit = .jump l ∨ c.loopEnd = some l

/-- The labels of lines belong to numbers of a context, and other labels are jumped to only as far as
`out` tells. -/
structure Placed (p : Program) (path numbers : List Nat) (out : Label → Prop) (ls : List Line) :
    Prop where
  nodup : (defined ls).Nodup
  below : ∀ l ∈ defined ls, l.Below path numbers
  jumps : ∀ l ∈ jumps ls, l ∈ defined ls ∨ out l
  calls : ∀ l ∈ calls ls, Callable p l

namespace Placed

variable {p : Program} {path numbers numbers' : List Nat} {out : Label → Prop} {ls ls' : List Line}

theorem nil : Placed p path numbers out [] := ⟨nodup_nil, by simp, by simp, by simp⟩

theorem append (h : Placed p path numbers out ls) (h' : Placed p path numbers' out ls')
    (hnumbers : (numbers ++ numbers').Nodup) : Placed p path (numbers ++ numbers') out (ls ++ ls') := by
  constructor
  · rw [defined_append]
    refine nodup_append.mpr ⟨h.nodup, h'.nodup, ?_⟩
    rintro l hl l' hl' rfl
    obtain ⟨n, hn, hn'⟩ := (h.below l hl).common (h'.below l hl')
    exact (nodup_append.mp hnumbers).2.2 n hn n hn' rfl
  · intro l hl
    rw [defined_append, mem_append] at hl
    rcases hl with hl | hl
    · exact (h.below l hl).mono fun n hn => mem_append_left _ hn
    · exact (h'.below l hl).mono fun n hn => mem_append_right _ hn
  · intro l hl
    rw [jumps_append, mem_append] at hl
    rw [defined_append, mem_append]
    rcases hl with hl | hl
    · exact (h.jumps l hl).imp_left .inl
    · exact (h'.jumps l hl).imp_left .inr
  · intro l hl
    rw [calls_append, mem_append] at hl
    exact hl.elim (h.calls l) (h'.calls l)

/-- Two pieces with numbers of their own. -/
theorem both (hnumbers : (numbers ++ numbers').Nodup) (h : numbers.Nodup → Placed p path numbers out ls)
    (h' : numbers'.Nodup → Placed p path numbers' out ls') :
    Placed p path (numbers ++ numbers') out (ls ++ ls') := by
  obtain ⟨hleft, hright, _⟩ := nodup_append.mp hnumbers
  exact (h hleft).append (h' hright) hnumbers

variable {out' : Label → Prop} {tail : List Line}

variable (h : Placed p path numbers out ls)

include h

theorem weaken (hout : ∀ l, out l → out' l) : Placed p path numbers out' ls :=
  ⟨h.nodup, h.below, fun l hl => (h.jumps l hl).imp_right (hout l), h.calls⟩

/-- Lines without labels of their own may follow. -/
theorem followed (hdefined : defined tail = [])
    (hjumps : ∀ l ∈ Assembly.jumps tail, out l) (hcalls : ∀ l ∈ Assembly.calls tail, Callable p l) :
    Placed p path numbers out (ls ++ tail) := by
  constructor
  · rw [defined_append, hdefined, append_nil]
    exact h.nodup
  · rw [defined_append, hdefined, append_nil]
    exact h.below
  · intro l hl
    rw [jumps_append, mem_append] at hl
    rw [defined_append, hdefined, append_nil]
    exact hl.elim (h.jumps l) fun hl => .inr (hjumps l hl)
  · intro l hl
    rw [calls_append, mem_append] at hl
    exact hl.elim (h.calls l) (hcalls l)

theorem followed_plain (hplain : ∀ line ∈ tail, line.Plain) : Placed p path numbers out (ls ++ tail) := by
  have hdefined : defined tail = [] :=
    filterMap_eq_nil_iff.mpr fun line hline => (hplain line hline).label
  have hjumps : Assembly.jumps tail = [] :=
    filterMap_eq_nil_iff.mpr fun line hline => (hplain line hline).jump
  have hcalls : Assembly.calls tail = [] :=
    filterMap_eq_nil_iff.mpr fun line hline => (hplain line hline).call
  exact h.followed hdefined (by simp [hjumps]) (by simp [hcalls])

/-- Lines around a piece may add labels of their own. -/
theorem around {path' : List Nat} (own : List Label)
    (hdefined : ∀ l, (defined ls').count l = (own ++ defined ls).count l) (hnodup : own.Nodup)
    (hbelow : ∀ l ∈ own, l.Below path' numbers') (hfresh : ∀ l ∈ own, ¬ l.Below path numbers)
    (hinner : ∀ l : Label, l.Below path numbers → l.Below path' numbers')
    (hjumps : ∀ l ∈ Assembly.jumps ls', l ∈ own ∨ l ∈ Assembly.jumps ls)
    (hcalls : ∀ l ∈ Assembly.calls ls', l ∈ Assembly.calls ls) (hout : ∀ l, out l → l ∈ own ∨ out' l) :
    Placed p path' numbers' out' ls' := by
  replace hdefined := perm_iff_count.mpr hdefined
  have hmem : ∀ l, l ∈ defined ls' ↔ l ∈ own ∨ l ∈ defined ls := fun l =>
    hdefined.mem_iff.trans mem_append
  constructor
  · rw [hdefined.nodup_iff]
    refine nodup_append.mpr ⟨hnodup, h.nodup, ?_⟩
    rintro l hl l' hl' rfl
    exact hfresh l hl (h.below l hl')
  · intro l hl
    exact ((hmem l).mp hl).elim (hbelow l) fun hl => hinner l (h.below l hl)
  · intro l hl
    rw [hmem]
    rcases hjumps l hl with hl | hl
    · exact .inl (.inl hl)
    · rcases h.jumps l hl with hl | hl
      · exact .inl (.inr hl)
      · exact (hout l hl).imp_left .inl
  · exact fun l hl => h.calls l (hcalls l hl)

end Placed

def Piece.numbers : Piece → List Nat
  | .expr e => e.labels
  | .exprs es => exprsLabels es
  | .stmt s => s.labels
  | .block stmts => blockLabels stmts

theorem labels_of_operation {e : Expr} {operands : List Expr}
    (h : e.operation? = some (operands, line)) : e.labels = exprsLabels operands := by
  cases Expr.operation_of_eq h with
  | unary | binary | args => simp [Expr.labels, Program.Index.labels, exprsLabels]
  | builtin | arg => rfl
  | @field _ source => exact source.labels_eq
  | @fieldAt _ source _ i =>
    rw [Program.exprsLabels_eq, flatMap_append, ← Program.exprsLabels_eq,
      ← Program.exprsLabels_eq, ← source.labels_eq, ← i.labels_eq]
    rfl

theorem Line.plain_of_isOperation (h : line.isOperation = true) : line.Plain := by
  cases line with
  | unary | binary | builtin | field | arg | args | innerBegin | innerField | innerSubmit =>
    exact ⟨rfl, rfl, rfl⟩
  | version | intBlock | byteBlock | label | literal | load | store | pop | branch | branchZero
  | call | returnCall | finish | err => cases h

theorem plain_storeLines (slots : List Nat) : ∀ line ∈ storeLines slots, line.Plain := by
  intro line hline
  obtain ⟨slot, _, rfl⟩ := mem_map.mp hline
  exact ⟨rfl, rfl, rfl⟩

theorem plain_singleton (h : line.Plain) : ∀ line' ∈ [line], line'.Plain := by
  intro line' hline'
  rw [mem_singleton.mp hline']
  exact h

section Pieces

variable {p : Program} {c : Context}

variable {numbers : List Nat} {ls lt ly : List Line} {n : Nat}

/-- A body in place of a call adds the label of its end. -/
theorem Placed.inlined {body : List Line} {name : String} {site : Nat}
    (h : Placed p (c.inlined name site).path numbers (c.inlined name site).Out body) :
    Placed p c.path [site] c.Out (body ++ [.label ((c.inlined name site).label (.inlineEnd name))]) := by
  have htrail : ((c.inlined name site).label (.inlineEnd name)).trail = c.path ++ [site] :=
    append_nil _
  refine h.around [(c.inlined name site).label (.inlineEnd name)] ?_
    (pairwise_singleton _ _) ?_ ?_ (fun l hl => hl.outward) ?_ ?_ ?_
  · exact fun l => by grind
  · intro l hl
    rw [mem_singleton.mp hl]
    exact ⟨site, mem_singleton_self site, htrail ▸ prefix_refl _⟩
  · -- The labels of the body have longer trails than its end.
    intro l hl hbelow
    have hlt := hbelow.length_lt
    rw [mem_singleton.mp hl, htrail] at hlt
    exact Nat.lt_irrefl _ hlt
  · intro l hl
    exact .inr (by simpa using hl)
  · simp
  · intro l hl
    rcases hl with hexit | hloop
    · cases hexit
      exact .inl (mem_singleton_self _)
    · cases hloop

/-- Lines around a piece may add labels with a number of their own. -/
theorem Placed.numbered {out : Label → Prop} {ls' : List Line} (h : Placed p c.path numbers out ls)
    (hn : n ∉ numbers) (marks : List Mark) (hmarks : ∀ mark ∈ marks, mark.numbers = [n])
    (hnodup : marks.Nodup) (hdefined : ∀ l, (defined ls').count l = (marks.map c.label ++ defined ls).count l)
    (hjumps : ∀ l ∈ Assembly.jumps ls', l ∈ marks.map c.label ∨ l ∈ Assembly.jumps ls)
    (hcalls : ∀ l ∈ Assembly.calls ls', l ∈ Assembly.calls ls)
    (hout : ∀ l, out l → l ∈ marks.map c.label ∨ c.Out l) : Placed p c.path (n :: numbers) c.Out ls' := by
  refine h.around (marks.map c.label) hdefined ?_ ?_ ?_ ?_ hjumps hcalls hout
  · exact pairwise_map.mpr (hnodup.imp fun hne heq => hne (Label.inBody.inj heq).1)
  · intro l hl
    obtain ⟨mark, hmark, rfl⟩ := mem_map.mp hl
    exact c.label_below (hmarks mark hmark) mem_cons_self
  · intro l hl hbelow
    obtain ⟨mark, hmark, rfl⟩ := mem_map.mp hl
    obtain ⟨n', hn', hmem⟩ :=
      (c.label_below (hmarks mark hmark) (mem_singleton_self n)).common hbelow
    rw [mem_singleton.mp hn'] at hmem
    exact hn hmem
  · exact fun l hl => hl.mono fun m hm => mem_cons_of_mem _ hm

/-- A choice between two pieces, with one label before the second of them and one behind it. -/
theorem Placed.twoWay {ln : List Line} {a b : Mark}
    (h : Placed p c.path numbers c.Out (lt ++ ly ++ ln)) (hn : n ∉ numbers) (ha : a.numbers = [n])
    (hb : b.numbers = [n]) (hne : a ≠ b) :
    Placed p c.path (n :: numbers) c.Out (lt ++ [.branchZero (c.label a)] ++ ly ++
      [.branch (c.label b), .label (c.label a)] ++ ln ++ [.label (c.label b)]) := by
  refine h.numbered hn [a, b] (by simp [ha, hb]) (by simp [hne]) ?_ ?_ ?_ fun l hl => .inr hl
  · exact fun l => by grind
  · exact fun l hl => by grind
  · exact fun l hl => by grind

theorem Placed.ifThen (h : Placed p c.path numbers c.Out (lt ++ ly)) (hn : n ∉ numbers) :
    Placed p c.path (n :: numbers) c.Out (ifLines c n lt ly) := by
  rw [ifLines]
  refine h.numbered hn [.ifEnd n] (by simp [Mark.numbers]) (by simp) ?_ ?_ ?_ fun l hl => .inr hl
  · exact fun l => by grind
  · exact fun l hl => by simpa [or_left_comm] using hl
  · exact fun l hl => by grind

theorem Placed.loop {lb : List Line}
    (h : Placed p c.path numbers (fun l => l = c.label (.loopEnd n) ∨ c.Out l) (lt ++ lb))
    (hn : n ∉ numbers) : Placed p c.path (n :: numbers) c.Out (loopLines c n lt lb) := by
  refine h.numbered hn [.loopStart n, .loopEnd n] (by simp [Mark.numbers]) (by simp) ?_ ?_ ?_ ?_
  · exact fun l => by grind [loopLines]
  · exact fun l hl => by grind [loopLines]
  · exact fun l hl => by grind [loopLines]
  · rintro l (rfl | hl)
    · exact .inl (by simp)
    · exact .inr hl

/-- The labels of a piece belong to its numbers, and it jumps to no others but those of its context.
The induction is over the code: bodies that stand in place of calls are part of it. -/
theorem Code.placed (hbodies : ∀ f ∈ p.functions, (blockLabels f.body).Nodup) {piece : Piece}
    (h : Code p c piece ls) (hnumbers : piece.numbers.Nodup) : Placed p c.path piece.numbers c.Out ls := by
  induction h with
  | literal | «variable» | constant =>
    exact Placed.nil.followed_plain (plain_singleton ⟨rfl, rfl, rfl⟩)
  | operation heq _ _ _ ih =>
    rw [Piece.numbers, labels_of_operation heq] at hnumbers ⊢
    exact (ih hnumbers).followed_plain
      (plain_singleton (Line.plain_of_isOperation (Program.Expr.isOperation_line heq)))
  | group _ ih => exact ih hnumbers
  | cast _ _ ih => exact ih hnumbers
  | @inlined c span f site args ls slots body callee hcallee _ _ _ _ _ iha ihb =>
    have hbody := (ihb (hbodies callee (mem_of_getElem? hcallee))).inlined
    have h := Placed.both hnumbers (fun h => (iha h).followed_plain (plain_storeLines slots)) fun _ => hbody
    rw [← append_assoc] at h
    exact h
  | @called c span f site args ls slots callee hcallee hinline hentry _ _ _ iha =>
    have hcall : ∀ l ∈ calls [.call (.subroutine callee.name.text)], Callable p l := by
      intro l hl
      rw [mem_singleton.mp hl]
      exact ⟨callee, mem_of_getElem? hcallee, ⟨hinline, hentry⟩, rfl⟩
    have hsite : Placed p c.path [site] c.Out [.call (.subroutine callee.name.text)] :=
      Placed.nil.followed rfl (fun l hl => nomatch hl) hcall
    exact .both hnumbers (fun h => (iha h).followed_plain (plain_storeLines slots)) fun _ => hsite
  | cond _ _ _ _ _ _ iht ihy ihn =>
    obtain ⟨hn, hrest⟩ := nodup_cons.mp hnumbers
    exact (Placed.both hrest (fun h => .both h iht ihy) ihn).twoWay hn rfl rfl nofun
  | nil => exact Placed.nil
  | cons _ _ _ ihe ihr => exact .both hnumbers ihe ihr
  | varDecl _ _ _ ih => exact (ih hnumbers).followed_plain (plain_storeLines _)
  | constDecl => exact Placed.nil
  | assign _ _ _ ih => exact (ih hnumbers).followed_plain (plain_storeLines _)
  | setField _ _ ih => exact (ih hnumbers).followed_plain (plain_singleton ⟨rfl, rfl, rfl⟩)
  | innerBegin | innerSubmit | error =>
    exact Placed.nil.followed_plain (plain_singleton ⟨rfl, rfl, rfl⟩)
  | @ret c span value ls _ _ ih =>
    cases hexit : c.exit with
    | finish | returnCall =>
      exact (ih hnumbers).followed_plain (plain_singleton ⟨rfl, rfl, rfl⟩)
    | jump target =>
      refine (ih hnumbers).followed rfl (fun l hl => ?_) (fun l hl => nomatch hl)
      rw [mem_singleton.mp hl]
      exact .inl hexit
  | ifThen _ _ _ iht ihy =>
    obtain ⟨hn, hrest⟩ := nodup_cons.mp hnumbers
    exact (Placed.both hrest iht ihy).ifThen hn
  | ifElse _ _ _ _ iht ihy ihn =>
    obtain ⟨hn, hrest⟩ := nodup_cons.mp hnumbers
    exact (Placed.both hrest (fun h => .both h iht ihy) ihn).twoWay hn rfl rfl nofun
  | @loop c span label test body lt lb _ _ _ iht ihb =>
    obtain ⟨hn, hrest⟩ := nodup_cons.mp hnumbers
    refine (Placed.both hrest (fun h => (iht h).weaken fun l hl => .inr hl)
      fun h => (ihb h).weaken fun l hl => ?_).loop hn
    exact hl.elim (fun hexit => .inr (.inl hexit)) fun hloop => .inl (Option.some.inj hloop).symm
  | @breakLoop c span target hloop =>
    refine Placed.nil.followed rfl (fun l hl => ?_) (fun l hl => nomatch hl)
    rw [mem_singleton.mp hl]
    exact .inr hloop
  | exprStmt _ ih =>
    refine (ih hnumbers).followed_plain fun line hline => ?_
    rw [eq_of_mem_replicate hline]
    exact ⟨rfl, rfl, rfl⟩
  | blockNil => exact Placed.nil
  | blockCons _ _ ihs ihr => exact .both hnumbers ihs ihr

end Pieces

/-! ### Programs -/

/-- The label is part of the subroutine of a function. -/
def Belongs (f : Function) (l : Label) : Prop :=
  l = .subroutine f.name.text ∨ l = .subroutineEnd f.name.text ∨ l.Below [] (blockLabels f.body)

theorem Belongs.disjoint {f g : Function} (h : Belongs f l) (h' : Belongs g l)
    (hname : f.name.text ≠ g.name.text) (hlabels : ∀ n ∈ blockLabels f.body, n ∉ blockLabels g.body) :
    False := by
  rcases h with rfl | rfl | h
  · rcases h' with h' | h' | h'
    · exact hname (Label.subroutine.inj h')
    · cases h'
    · exact h'.trail_ne_nil rfl
  · rcases h' with h' | h' | h'
    · cases h'
    · exact hname (Label.subroutineEnd.inj h')
    · exact h'.trail_ne_nil rfl
  · rcases h' with rfl | rfl | h'
    · exact h.trail_ne_nil rfl
    · exact h.trail_ne_nil rfl
    · obtain ⟨n, hn, hn'⟩ := h.common h'
      exact hlabels n hn hn'

/-- Code of a body that is not part of another jumps to labels of its own only. -/
structure Enclosed (p : Program) (numbers : List Nat) (ls : List Line) : Prop where
  nodup : (defined ls).Nodup
  below : ∀ l ∈ defined ls, l.Below [] numbers
  jumps : ∀ l ∈ jumps ls, l ∈ defined ls
  calls : ∀ l ∈ calls ls, Callable p l

theorem Code.enclosed (hbodies : ∀ f ∈ p.functions, (blockLabels f.body).Nodup) {exit : Exit}
    (hexit : ∀ l, exit ≠ .jump l) {stmts : List Stmt} (h : Code p (.outer exit) (.block stmts) ls)
    (hnumbers : (blockLabels stmts).Nodup) : Enclosed p (blockLabels stmts) ls := by
  have hplaced := h.placed hbodies hnumbers
  refine ⟨hplaced.nodup, hplaced.below, fun l hl => ?_, hplaced.calls⟩
  rcases hplaced.jumps l hl with hdefined | hjump | hloop
  · exact hdefined
  · exact absurd hjump (hexit l)
  · cases hloop

theorem SubroutinesCode.defined_nodup (hbodies : ∀ f ∈ p.functions, (blockLabels f.body).Nodup)
    {fs : List Function} (h : SubroutinesCode p fs ls)
    (hnumbers : (fs.flatMap (blockLabels ·.body)).Nodup) (hnames : (fs.map (·.name.text)).Nodup) :
    (defined ls).Nodup ∧ ∀ l ∈ defined ls, ∃ f ∈ fs, HasSubroutine f ∧ Belongs f l := by
  induction h with
  | nil => simp
  | skip _ _ ih =>
    rw [flatMap_cons] at hnumbers
    obtain ⟨hnodup, hbelongs⟩ :=
      ih (nodup_append.mp hnumbers).2.1 (nodup_cons.mp hnames).2
    refine ⟨hnodup, fun l hl => ?_⟩
    obtain ⟨f, hf, h⟩ := hbelongs l hl
    exact ⟨f, mem_cons_of_mem _ hf, h⟩
  | @cons f rest body ls hinline hentry hbody _ ih =>
    rw [flatMap_cons] at hnumbers
    obtain ⟨hown, hothers, hdisjoint⟩ := nodup_append.mp hnumbers
    obtain ⟨hname, hnames⟩ := nodup_cons.mp hnames
    obtain ⟨hnodup, hbelongs⟩ := ih hothers hnames
    have hplaced := hbody.enclosed hbodies (by simp) hown
    have hfirst : ∀ l ∈ .subroutine f.name.text :: (defined body ++ [.subroutineEnd f.name.text]),
        Belongs f l := by
      intro l hl
      rw [mem_cons, mem_append, mem_singleton] at hl
      exact hl.imp_right fun hl => hl.symm.imp_right (hplaced.below l)
    have hsubroutine :
        (.subroutine f.name.text :: (defined body ++ [.subroutineEnd f.name.text])).Nodup := by
      refine nodup_cons.mpr ⟨fun hmem => ?_, nodup_append.mpr
        ⟨hplaced.nodup, pairwise_singleton _ _, ?_⟩⟩
      · rcases mem_append.mp hmem with hmem | hmem
        · exact (hplaced.below _ hmem).trail_ne_nil rfl
        · cases mem_singleton.mp hmem
      · rintro l hl l' hl' rfl
        rw [mem_singleton.mp hl'] at hl
        exact (hplaced.below _ hl).trail_ne_nil rfl
    have hdefined : defined ([.branch (.subroutineEnd f.name.text),
        .label (.subroutine f.name.text)] ++ body ++ [.label (.subroutineEnd f.name.text)] ++ ls) =
        .subroutine f.name.text :: (defined body ++ [.subroutineEnd f.name.text]) ++
          defined ls := by
      simp
    rw [hdefined]
    refine ⟨nodup_append.mpr ⟨hsubroutine, hnodup, ?_⟩, fun l hl => ?_⟩
    · rintro l hl l' hl' rfl
      obtain ⟨g, hg, _, hbelongs⟩ := hbelongs l hl'
      refine (hfirst l hl).disjoint hbelongs (fun hsame => hname ?_) fun n hn hn' => ?_
      · exact mem_map.mpr ⟨g, hg, hsame.symm⟩
      · exact hdisjoint n hn n (mem_flatMap.mpr ⟨g, hg, hn'⟩) rfl
    · rcases mem_append.mp hl with hl | hl
      · exact ⟨f, mem_cons_self, ⟨hinline, hentry⟩, hfirst l hl⟩
      · obtain ⟨g, hg, h⟩ := hbelongs l hl
        exact ⟨g, mem_cons_of_mem _ hg, h⟩

theorem header_cases (h : line ∈ [.version p.version] ++ poolLines p.pool) :
    line = .version p.version ∨ line = .intBlock p.pool.ints ∨ line = .byteBlock p.pool.bytes := by
  simp only [poolLines, mem_append, mem_singleton, mem_ite_nil_left] at h
  exact h.imp_right (Or.imp And.right And.right)

theorem plain_header (p : Program) : ∀ line ∈ [.version p.version] ++ poolLines p.pool, line.Plain := by
  intro line hline
  rcases header_cases hline with rfl | rfl | rfl <;> exact ⟨rfl, rfl, rfl⟩

section Programs

variable {p : Program}

variable (hp : p.WellBuilt)

include hp

theorem nodup_flatMap_labels : (p.functions.flatMap (blockLabels ·.body)).Nodup :=
  (nodup_append.mp hp.labels).2.1

theorem nodup_bodyLabels : ∀ f ∈ p.functions, (blockLabels f.body).Nodup := by
  intro f hf
  exact (pairwise_flatMap.mp (nodup_flatMap_labels hp)).1 f hf

theorem nodup_names : (p.functions.map (·.name.text)).Nodup := by
  rw [List.Nodup, pairwise_map, pairwise_iff_getElem]
  intro i j hi hj hlt hname
  exact Nat.ne_of_lt hlt (hp.names (getElem?_eq_getElem hi) (getElem?_eq_getElem hj) hname)

/-- Functions at different places share no numbers. -/
theorem disjoint_bodyLabels {i j : Nat} {f g : Function}
    (hf : p.functions[i]? = some f) (hg : p.functions[j]? = some g) (hne : i ≠ j) :
    ∀ n ∈ blockLabels f.body, n ∉ blockLabels g.body := by
  have hpairs := (pairwise_flatMap.mp (nodup_flatMap_labels hp)).2
  obtain ⟨hi, rfl⟩ := List.getElem?_eq_some_iff.mp hf
  obtain ⟨hj, rfl⟩ := List.getElem?_eq_some_iff.mp hg
  intro n hn hn'
  rcases Nat.lt_or_gt_of_ne hne with hlt | hlt
  · exact pairwise_iff_getElem.mp hpairs i j hi hj hlt n hn n hn' rfl
  · exact pairwise_iff_getElem.mp hpairs j i hj hi hlt n hn' n hn rfl

variable {l : Label} {lines : List Line}

/-- The subroutine of a function has other labels than the entry point and the globals. -/
theorem Belongs.not_below {entry f : Function}
    (hentry : p.functions[p.entry]? = some entry) (hf : f ∈ p.functions) (hsub : HasSubroutine f)
    (h : Belongs f l) : ¬ l.Below [] (blockLabels p.globals) ∧ ¬ l.Below [] (blockLabels entry.body) := by
  obtain ⟨i, hi⟩ := mem_iff_getElem?.mp hf
  have hne : i ≠ p.entry := by
    rintro rfl
    obtain ⟨g, hg, hisEntry⟩ := hp.entry
    cases hi.symm.trans hg
    rw [hsub.2] at hisEntry
    cases hisEntry
  rcases h with rfl | rfl | h
  · exact ⟨fun hbelow => hbelow.trail_ne_nil rfl, fun hbelow => hbelow.trail_ne_nil rfl⟩
  · exact ⟨fun hbelow => hbelow.trail_ne_nil rfl, fun hbelow => hbelow.trail_ne_nil rfl⟩
  · constructor
    · intro hbelow
      obtain ⟨n, hn, hn'⟩ := h.common hbelow
      exact (nodup_append.mp hp.labels).2.2 n hn' n (mem_flatMap.mpr ⟨f, hf, hn⟩) rfl
    · intro hbelow
      obtain ⟨n, hn, hn'⟩ := h.common hbelow
      exact disjoint_bodyLabels hp hi hentry hne n hn hn'

omit hp

theorem defined_programLines (globals subroutines body : List Line) :
    defined ([.version p.version] ++ poolLines p.pool ++ globals ++ subroutines ++ body ++
      [.label .programEnd]) = defined globals ++ defined subroutines ++ defined body ++ [.programEnd] := by
  have hheader : defined ([.version p.version] ++ poolLines p.pool) = [] :=
    filterMap_eq_nil_iff.mpr fun line hline => (plain_header p line hline).label
  simp only [defined_append] at hheader ⊢
  rw [hheader]
  rfl

/-- What the labels of a program are: those in bodies, those of subroutines and the last one. -/
theorem ProgramCode.defined_cases (hp : p.WellBuilt) (h : ProgramCode p lines) (hl : l ∈ defined lines) :
    l.trail ≠ [] ∨ (∃ f ∈ p.functions, HasSubroutine f ∧
      (l = .subroutine f.name.text ∨ l = .subroutineEnd f.name.text)) ∨ l = .programEnd := by
  cases h with
  | @mk globals subroutines body entry hentry hglobals hsubroutines hbody =>
    have hbodies := nodup_bodyLabels hp
    have hg := hglobals.enclosed hbodies (by simp) (nodup_append.mp hp.labels).1
    have hb := hbody.enclosed hbodies (by simp) (hbodies entry (mem_of_getElem? hentry))
    have hs := (hsubroutines.defined_nodup hbodies (nodup_flatMap_labels hp) (nodup_names hp)).2
    rw [defined_programLines, mem_append, mem_append, mem_append, mem_singleton] at hl
    rcases hl with ((hl | hl) | hl) | hl
    · exact .inl (hg.below l hl).trail_ne_nil
    · obtain ⟨f, hf, hsub, hstart | hend | hbelow⟩ := hs l hl
      · exact .inr (.inl ⟨f, hf, hsub, .inl hstart⟩)
      · exact .inr (.inl ⟨f, hf, hsub, .inr hend⟩)
      · exact .inl hbelow.trail_ne_nil
    · exact .inl (hb.below l hl).trail_ne_nil
    · exact .inr (.inr hl)

theorem ProgramCode.ne_reservedEnd (hp : p.WellBuilt) (h : ProgramCode p lines) (hl : l ∈ defined lines)
    : l ≠ .subroutineEnd Program.Build.reservedName := by
  rintro rfl
  rcases h.defined_cases hp hl with htrail | ⟨f, hf, _, hstart | hend⟩ | hlast
  · exact htrail rfl
  · cases hstart
  · exact hp.unreserved f hf (Label.subroutineEnd.inj hend).symm
  · cases hlast

theorem ProgramCode.defined_nodup (hp : p.WellBuilt) (h : ProgramCode p lines) : (defined lines).Nodup := by
  cases h with
  | @mk globals subroutines body entry hentry hglobals hsubroutines hbody =>
    have hbodies := nodup_bodyLabels hp
    have hnumbers := nodup_append.mp hp.labels
    have hmem := mem_of_getElem? hentry
    have hg := hglobals.enclosed hbodies (by simp) hnumbers.1
    have hb := hbody.enclosed hbodies (by simp) (hbodies entry hmem)
    obtain ⟨hsnodup, hsbelongs⟩ :=
      hsubroutines.defined_nodup hbodies (nodup_flatMap_labels hp) (nodup_names hp)
    rw [defined_programLines]
    refine nodup_append.mpr ⟨nodup_append.mpr ⟨nodup_append.mpr
      ⟨hg.nodup, hsnodup, ?_⟩, hb.nodup, ?_⟩, pairwise_singleton _ _, ?_⟩
    · rintro l hl l' hl' rfl
      obtain ⟨f, hf, hsub, hbelongs⟩ := hsbelongs l hl'
      exact (hbelongs.not_below hp hentry hf hsub).1 (hg.below l hl)
    · rintro l hl l' hl' rfl
      rcases mem_append.mp hl with hl | hl
      · obtain ⟨n, hn, hn'⟩ := (hg.below l hl).common (hb.below l hl')
        exact hnumbers.2.2 n hn n (mem_flatMap.mpr ⟨entry, hmem, hn'⟩) rfl
      · obtain ⟨f, hf, hsub, hbelongs⟩ := hsbelongs l hl
        exact (hbelongs.not_below hp hentry hf hsub).2 (hb.below l hl')
    · rintro l hl l' hl' rfl
      rw [mem_singleton.mp hl', mem_append, mem_append] at hl
      rcases hl with (hl | hl) | hl
      · exact (hg.below _ hl).trail_ne_nil rfl
      · obtain ⟨f, _, _, hstart | hend | hbelow⟩ := hsbelongs _ hl
        · cases hstart
        · cases hend
        · exact hbelow.trail_ne_nil rfl
      · exact (hb.below _ hl).trail_ne_nil rfl

/-- A text stands for one label at most, and its label is defined at one place at most. -/
theorem ProgramCode.label_unique (hp : p.WellBuilt) (h : ProgramCode p lines) {i j : Nat} {l' : Label}
    (hi : lines[i]? = some (.label l)) (hj : lines[j]? = some (.label l')) (htext : l.text = l'.text)
    : l = l' ∧ i = j := by
  have hl := h.ne_reservedEnd hp (mem_defined.mpr (mem_of_getElem? hi))
  have hl' := h.ne_reservedEnd hp (mem_defined.mpr (mem_of_getElem? hj))
  obtain rfl := Label.text_inj hl hl' htext
  refine ⟨rfl, ?_⟩
  have hpairs := pairwise_iff_getElem.mp (pairwise_filterMap.mp (h.defined_nodup hp))
  obtain ⟨hlt, hget⟩ := List.getElem?_eq_some_iff.mp hi
  obtain ⟨hlt', hget'⟩ := List.getElem?_eq_some_iff.mp hj
  rcases Nat.lt_trichotomy i j with hij | hij | hij
  · exact absurd rfl (hpairs i j hlt hlt' hij l (by rw [hget]; rfl) l (by rw [hget']; rfl))
  · exact hij
  · exact absurd rfl (hpairs j i hlt' hlt hij l (by rw [hget']; rfl) l (by rw [hget]; rfl))

end Programs

end Teal.Assembly
