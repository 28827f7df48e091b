import Teal.Proofs.Assembly.Regions

/-! How high the stack is at each line. Lines are annotated with the height that they find. Every line
finds the values it takes, and it leaves the next line the height that its effect tells, unless control
does not go on there; a jump finds at its target the height that it leaves. A body is entered at some
*base*: its statements begin and end there, it is left one value above, and so is the body of a function
that stands in place of a call in the middle of an expression. -/

namespace Teal.Assembly

open List
open Program (Expr Stmt Function blockTerminates)

/-- Whether control goes on at the next line. -/
def Line.falls : Line → Bool
  | .branch _ | .returnCall | .finish | .err => false
  | _ => true

/-- Heights along lines, from the first to behind the last. -/
inductive Flow : Nat → List (Line × Nat) → Nat → Prop
  | nil {h} : Flow h [] h
  | falls {line : Line} {h rest out} (hpops : line.pops ≤ h) (hfalls : line.falls = true)
      (hrest : Flow (h - line.pops + line.pushes) rest out) : Flow h ((line, h) :: rest) out
  /-- Nothing is known of the height behind a line that control does not pass. -/
  | leaves {line : Line} {h next rest out} (hpops : line.pops ≤ h) (hfalls : line.falls = false)
      (hrest : Flow next rest out) : Flow h ((line, h) :: rest) out

namespace Flow

variable {h mid out : Nat} {a b : List (Line × Nat)}

theorem append (ha : Flow h a mid) (hb : Flow mid b out) : Flow h (a ++ b) out := by
  induction ha with
  | nil => exact hb
  | falls hpops hfalls _ ih => exact falls hpops hfalls (ih hb)
  | leaves hpops hfalls _ ih => exact leaves hpops hfalls (ih hb)

theorem one {line : Line} (hpops : line.pops ≤ h) (hfalls : line.falls = true)
    (hout : out = h - line.pops + line.pushes) : Flow h [(line, h)] out := by
  subst hout
  exact falls hpops hfalls nil

theorem last {line : Line} (hpops : line.pops ≤ h) (hfalls : line.falls = false) : Flow h [(line, h)] out :=
  leaves hpops hfalls nil

theorem label (l : Label) : Flow h [(.label l, h)] h :=
  one (Nat.zero_le h) rfl rfl

theorem head (ha : Flow h a out) (hne : a ≠ []) : a.head?.map Prod.snd = some h := by
  cases ha with
  | nil => exact absurd rfl hne
  | falls => rfl
  | leaves => rfl

end Flow

/-! ### Annotated code -/

def Label.isInlineEnd : Label → Bool
  | .inBody (.inlineEnd _) _ => true
  | _ => false

/-- A body in place of a call is entered one value below the height at its end. -/
def EndsInlined (p : Program) (annotated : List (Line × Nat)) (name : String) (path : List Nat)
    (h : Nat) : Prop :=
  ∃ (before body after : List (Line × Nat)) (f : Function) (c : Context) (base : Nat),
    annotated = before ++ body ++ (.label (.inBody (.inlineEnd name) path), h) :: after ∧
    f ∈ p.functions ∧ f.inline = true ∧ f.name.text = name ∧ c.path = path ∧
    Code p c (.block f.body) (body.map Prod.fst) ∧
    body.head?.map Prod.snd = some base ∧ h = base + 1

theorem EndsInlined.append {p : Program} {a : List (Line × Nat)} {name : String} {path : List Nat}
    {h : Nat} (hends : EndsInlined p a name path h) (before after : List (Line × Nat)) :
    EndsInlined p (before ++ a ++ after) name path h := by
  obtain ⟨before', body, after', f, c, base, rfl, hrest⟩ := hends
  exact ⟨before ++ before', body, after' ++ after, f, c, base, by simp, hrest⟩

/-- Jumps meet their labels at the height they leave, or they and the ends of bodies leave the lines as
`leave` tells. -/
structure Settled (p : Program) (leave : Line → Nat → Prop) (annotated : List (Line × Nat)) :
    Prop where
  jumps : ∀ {line : Line} {h l}, (line, h) ∈ annotated → line.jump? = some l →
    (.label l, h - line.pops) ∈ annotated ∨ leave line h
  exits : ∀ {line h}, (line, h) ∈ annotated → line = .finish ∨ line = .returnCall → leave line h
  inlined : ∀ {name path h}, (.label (.inBody (.inlineEnd name) path), h) ∈ annotated →
    EndsInlined p annotated name path h

/-- Code in a context leaves a body that was entered at a base one value above it, and a loop at it. -/
def Context.Leaves (c : Context) (base : Nat) (line : Line) (h : Nat) : Prop :=
  (line = c.exit.line ∧ h = base + 1) ∨ ∃ l, c.loopEnd = some l ∧ line = .branch l ∧ h = base

/-- The line jumps to one of some labels, at the height that goes with it. -/
def JumpsTo (targets : List (Label × Nat)) (line : Line) (h : Nat) : Prop :=
  ∃ l, line.jump? = some l ∧ (l, h - line.pops) ∈ targets

/-- Jumps to some labels are ways to leave as well. -/
def orTo (leave : Line → Nat → Prop) (targets : List (Label × Nat)) (line : Line) (h : Nat) : Prop :=
  leave line h ∨ JumpsTo targets line h

namespace Settled

variable {p : Program} {leave : Line → Nat → Prop} {a b : List (Line × Nat)}

theorem nil : Settled p leave [] := ⟨nofun, nofun, nofun⟩

theorem append (ha : Settled p leave a) (hb : Settled p leave b) : Settled p leave (a ++ b) := by
  constructor
  · intro line h l hmem hjump
    rcases mem_append.mp hmem with hmem | hmem
    · exact (ha.jumps hmem hjump).imp_left (mem_append_left _)
    · exact (hb.jumps hmem hjump).imp_left (mem_append_right _)
  · intro line h hmem hexit
    rcases mem_append.mp hmem with hmem | hmem
    · exact ha.exits hmem hexit
    · exact hb.exits hmem hexit
  · intro name path h hmem
    rcases mem_append.mp hmem with hmem | hmem
    · exact (ha.inlined hmem).append [] b
    · have hends := (hb.inlined hmem).append a []
      rw [append_nil] at hends
      exact hends

theorem weaken (ha : Settled p leave a) {leave' : Line → Nat → Prop}
    (h : ∀ line k, leave line k → leave' line k) : Settled p leave' a :=
  ⟨fun hmem hjump => (ha.jumps hmem hjump).imp_right (h _ _),
    fun hmem hexit => h _ _ (ha.exits hmem hexit), ha.inlined⟩

/-- A line that does not jump and is not the end of a body in place of a call. -/
theorem straight {line : Line} {k : Nat} (hjump : line.jump? = none)
    (hexit : line ≠ .finish ∧ line ≠ .returnCall)
    (hlabel : ∀ l, line.label? = some l → l.isInlineEnd = false) : Settled p leave [(line, k)] := by
  constructor
  · intro line' k' l hmem hjump'
    cases mem_singleton.mp hmem
    rw [hjump] at hjump'
    cases hjump'
  · intro line' k' hmem heq
    cases mem_singleton.mp hmem
    exact heq.elim (fun heq => absurd heq hexit.1) fun heq => absurd heq hexit.2
  · intro name path k' hmem
    cases mem_singleton.mp hmem
    cases hlabel _ rfl

/-- A line that leaves, or jumps to a label outside. -/
theorem leaving {line : Line} {k : Nat} (hlabel : line.label? = none) (h : leave line k) :
    Settled p leave [(line, k)] := by
  constructor
  · intro line' k' l hmem hjump
    cases mem_singleton.mp hmem
    exact .inr h
  · intro line' k' hmem hexit
    cases mem_singleton.mp hmem
    exact h
  · intro name path k' hmem
    cases mem_singleton.mp hmem
    cases hlabel

/-- Labels outside that lines jump to may turn out to be theirs. -/
theorem close {targets : List (Label × Nat)} (ha : Settled p (orTo leave targets) a)
    (h : ∀ l k, (l, k) ∈ targets → (.label l, k) ∈ a) : Settled p leave a := by
  constructor
  · intro line k l hmem hjump
    rcases ha.jumps hmem hjump with hlabel | hleave | ⟨l', hjump', htarget⟩
    · exact .inl hlabel
    · exact .inr hleave
    · cases hjump.symm.trans hjump'
      exact .inl (h l _ htarget)
  · intro line k hmem hexit
    rcases ha.exits hmem hexit with hleave | ⟨l, hjump, _⟩
    · exact hleave
    · rcases hexit with rfl | rfl <;> cases hjump
  · exact ha.inlined

end Settled

/-! ### Pieces -/

/-- The heights that the code of a piece begins and ends at, in a body that was entered at a base. If
control does not go on behind it, it may end at any height. -/
def Piece.Moves (p : Program) (base h out : Nat) : Piece → Prop
  | .expr e => out = h + e.arity p
  | .exprs es => out = h + es.length
  | .stmt s => h = base ∧ (s.terminates = true ∨ out = base)
  | .block stmts => h = base ∧ (blockTerminates stmts = true ∨ out = base)

/-- Lines have heights that begin and end as told, and some labels are among them at given heights. -/
def Rated (p : Program) (leave : Line → Nat → Prop) (marks : List (Label × Nat)) (h : Nat)
    (ls : List Line) (out : Nat) : Prop :=
  ∃ annotated, annotated.map Prod.fst = ls ∧ Flow h annotated out ∧ Settled p leave annotated ∧
    ∀ l k, (l, k) ∈ marks → (.label l, k) ∈ annotated

namespace Rated

variable {p : Program} {leave : Line → Nat → Prop} {marks marks' : List (Label × Nat)}
  {h mid out : Nat} {a b : List Line}

theorem nil : Rated p leave [] h [] h := ⟨[], rfl, .nil, .nil, nofun⟩

theorem append (ha : Rated p leave marks h a mid) (hb : Rated p leave marks' mid b out) :
    Rated p leave (marks ++ marks') h (a ++ b) out := by
  obtain ⟨a', rfl, hflow, hsettled, hmarks⟩ := ha
  obtain ⟨b', rfl, hflow', hsettled', hmarks'⟩ := hb
  refine ⟨a' ++ b', map_append, hflow.append hflow', hsettled.append hsettled', ?_⟩
  intro l k hmem
  rcases mem_append.mp hmem with hmem | hmem
  · exact mem_append_left _ (hmarks l k hmem)
  · exact mem_append_right _ (hmarks' l k hmem)

theorem weaken (ha : Rated p leave marks h a out) {leave' : Line → Nat → Prop}
    (hleave : ∀ line k, leave line k → leave' line k) : Rated p leave' marks h a out := by
  obtain ⟨a', hmap, hflow, hsettled, hmarks⟩ := ha
  exact ⟨a', hmap, hflow, hsettled.weaken hleave, hmarks⟩

theorem close {targets : List (Label × Nat)} (ha : Rated p (orTo leave targets) marks h a out)
    (htargets : ∀ x ∈ targets, x ∈ marks) : Rated p leave marks h a out := by
  obtain ⟨a', hmap, hflow, hsettled, hmarks⟩ := ha
  exact ⟨a', hmap, hflow, hsettled.close fun l k hmem => hmarks l k (htargets _ hmem), hmarks⟩

theorem unmarked (ha : Rated p leave marks h a out) : Rated p leave [] h a out := by
  obtain ⟨a', hmap, hflow, hsettled, _⟩ := ha
  exact ⟨a', hmap, hflow, hsettled, nofun⟩

/-- A line that moves values and lets control go on. -/
theorem line {line : Line} (hjump : line.jump? = none) (hlabel : line.label? = none)
    (hpops : line.pops ≤ h) (hfalls : line.falls = true)
    (hout : out = h - line.pops + line.pushes) : Rated p leave [] h [line] out := by
  refine ⟨[(line, h)], rfl, .one hpops hfalls hout, .straight hjump ⟨?_, ?_⟩ ?_, nofun⟩
  · rintro rfl
    cases hfalls
  · rintro rfl
    cases hfalls
  · intro l hl
    rw [hlabel] at hl
    cases hl

/-- A line that leaves, or jumps to a label outside. -/
theorem leaving {line : Line} (hlabel : line.label? = none) (hpops : line.pops ≤ h)
    (hfalls : line.falls = false) (hleave : leave line h) : Rated p leave [] h [line] out :=
  ⟨[(line, h)], rfl, .last hpops hfalls, .leaving hlabel hleave, nofun⟩

variable {l fi : Label} {ls lt ly : List Line}

theorem branchZero (hleave : leave (.branchZero l) (h + 1)) : Rated p leave [] (h + 1) [.branchZero l] h :=
  ⟨[(.branchZero l, h + 1)], rfl, .one (Nat.le_add_left 1 h) rfl rfl, .leaving rfl hleave, nofun⟩

section Jumps

variable {targets : List (Label × Nat)}

theorem widen (targets : List (Label × Nat)) (ha : Rated p leave marks h a out) :
    Rated p (orTo leave targets) marks h a out :=
  ha.weaken fun _ _ => .inl

theorem jump (l : Label) (hl : (l, h) ∈ targets) : Rated p (orTo leave targets) [] h [.branch l] out :=
  leaving rfl (Nat.zero_le _) rfl (.inr ⟨l, rfl, hl⟩)

theorem test (l : Label) (hl : (l, h) ∈ targets) :
    Rated p (orTo leave targets) [] (h + 1) [.branchZero l] h :=
  branchZero (.inr ⟨l, rfl, hl⟩)

end Jumps

theorem label (hl : l.isInlineEnd = false) : Rated p leave [(l, h)] h [.label l] h := by
  refine ⟨[(.label l, h)], rfl, .label l, .straight rfl ⟨nofun, nofun⟩ ?_, ?_⟩
  · intro l' hl'
    cases hl'
    exact hl
  · intro l' k hmem
    cases mem_singleton.mp hmem
    exact mem_singleton_self _

/-- Lines that take so many values each, and leave none. -/
theorem taking (h n : Nat)
    (hls : ∀ line ∈ ls, line.Plain ∧ line.falls = true ∧ line.pops = n ∧ line.pushes = 0) :
    Rated p leave [] (h + ls.length * n) ls h := by
  induction ls with
  | nil =>
    rw [length_nil, Nat.zero_mul]
    exact nil
  | cons line rest ih =>
    obtain ⟨hplain, hfalls, hpops, hpushes⟩ := hls line mem_cons_self
    have hrest := ih fun line' hline' => hls line' (mem_cons_of_mem _ hline')
    have hline : Rated p leave [] (h + (line :: rest).length * n) [line] (h + rest.length * n) := by
      rw [length_cons, Nat.succ_mul]
      exact Rated.line hplain.jump hplain.label (by omega) hfalls (by omega)
    exact hline.append hrest

/-- Values are taken into as many slots. -/
theorem stored {n : Nat} (hls : Rated p leave [] h ls (h + n)) {slots : List Nat}
    (hslots : slots.length = n) : Rated p leave [] h (ls ++ storeLines slots) h := by
  have hlength : (storeLines slots).length = n := by
    rw [storeLines, length_map, length_reverse, hslots]
  rw [← hlength, ← Nat.mul_one (storeLines slots).length] at hls
  refine hls.append (taking h 1 fun line hline => ⟨plain_storeLines slots line hline, ?_⟩)
  obtain ⟨slot, _, rfl⟩ := mem_map.mp hline
  exact ⟨rfl, rfl, rfl⟩

/-- A choice between two ways that end at the same height. -/
theorem twoWay {no : Label} (hno : no.isInlineEnd = false) (hfi : fi.isInlineEnd = false)
    {ln : List Line} (ht : Rated p leave [] h lt (h + 1)) (hy : Rated p leave [] h ly out)
    (hn : Rated p leave [] h ln out) : Rated p leave [] h
      (lt ++ [.branchZero no] ++ ly ++ [.branch fi, .label no] ++ ln ++ [.label fi]) out := by
  have hall := (((((ht.widen [(no, h), (fi, out)]).append (test no (by simp))).append
    (hy.widen _)).append ((jump fi (by simp)).append (label hno))).append (hn.widen _)).append (label hfi)
  exact (hall.close (by simp)).unmarked

/-- A way that may be left out, and that ends where it begins. -/
theorem oneWay (hfi : fi.isInlineEnd = false) (ht : Rated p leave [] h lt (h + 1))
    (hy : Rated p leave [] h ly h) : Rated p leave [] h (lt ++ [.branchZero fi] ++ ly ++ [.label fi]) h := by
  have hall := (((ht.widen [(fi, h)]).append (test fi (by simp))).append (hy.widen _)).append (label hfi)
  exact (hall.close (by simp)).unmarked

/-- A way that is gone again and again. It may also be left from inside. -/
theorem loop {start : Label} (hstart : start.isInlineEnd = false) (hfi : fi.isInlineEnd = false)
    {lb : List Line} (ht : Rated p leave [] h lt (h + 1))
    (hb : Rated p (fun line k => leave line k ∨ line = .branch fi ∧ k = h) [] h lb h) :
    Rated p leave [] h ([.label start] ++ lt ++ [.branchZero fi] ++ lb ++ [.branch start, .label fi]) h := by
  have hbody : Rated p (orTo leave [(start, h), (fi, h)]) [] h lb h := by
    refine hb.weaken fun line k hleave => hleave.imp_right ?_
    rintro ⟨rfl, rfl⟩
    exact ⟨fi, rfl, by simp [Line.pops]⟩
  have hall := ((((label hstart).append (ht.widen _)).append (test fi (by simp))).append hbody).append
    ((jump start (by simp)).append (@label _ _ h _ hfi))
  exact (hall.close (by simp)).unmarked

/-- A body that stands in place of a call. -/
theorem inlined {c : Context} {name : String} {site : Nat} {f : Function} (hf : f ∈ p.functions)
    (hinline : f.inline = true) (hname : f.name.text = name) {body : List Line}
    (hcode : Code p (c.inlined name site) (.block f.body) body)
    (hbody : Rated p ((c.inlined name site).Leaves h) [] h body (h + 1)) :
    Rated p leave [] h (body ++ [.label ((c.inlined name site).label (.inlineEnd name))]) (h + 1) := by
  obtain ⟨annotated, rfl, hflow, hsettled, _⟩ := hbody
  have hends : EndsInlined p
      (annotated ++ [(.label ((c.inlined name site).label (.inlineEnd name)), h + 1)]) name
      (c.inlined name site).path (h + 1) := by
    refine ⟨[], annotated, [], f, c.inlined name site, h, rfl, hf, hinline, hname, rfl, hcode,
      hflow.head ?_, rfl⟩
    rintro rfl
    cases hflow
  refine ⟨_, map_append, hflow.append (.label _), ⟨?_, ?_, ?_⟩, nofun⟩
  · intro line k l hmem hjump
    rcases mem_append.mp hmem with hmem | hmem
    · rcases hsettled.jumps hmem hjump with hlabel | ⟨rfl, rfl⟩ | ⟨l', hloop, _⟩
      · exact .inl (mem_append_left _ hlabel)
      · cases hjump
        exact .inl (mem_append_right _ (mem_singleton_self _))
      · cases hloop
    · cases mem_singleton.mp hmem
      cases hjump
  · intro line k hmem hexit
    rcases mem_append.mp hmem with hmem | hmem
    · rcases hsettled.exits hmem hexit with ⟨rfl, _⟩ | ⟨l, hloop, _⟩
      · rcases hexit with heq | heq <;> cases heq
      · cases hloop
    · cases mem_singleton.mp hmem
      rcases hexit with heq | heq <;> cases heq
  · intro name' path' k hmem
    rcases mem_append.mp hmem with hmem | hmem
    · exact (hsettled.inlined hmem).append [] _
    · cases mem_singleton.mp hmem
      exact hends

end Rated

theorem Line.falls_of_isOperation {line : Line} (h : line.isOperation = true) : line.falls = true := by
  cases line with
  | branch | returnCall | finish | err => cases h
  | _ => rfl

theorem Exit.pops_le (exit : Exit) : exit.line.pops ≤ 1 := by
  cases exit <;> simp [Exit.line, Line.pops]

theorem Exit.falls_line (exit : Exit) : exit.line.falls = false := by
  cases exit <;> rfl

theorem Exit.label?_line (exit : Exit) : exit.line.label? = none := by
  cases exit <;> rfl

/-- Every piece of code has heights: expressions leave as many values as they have results, statements
leave none. The induction is over the code, for all bases and heights at once, since bodies are entered
in the middle of expressions. -/
theorem Code.rated {p : Program} (hterminates : ∀ f ∈ p.functions, blockTerminates f.body = true)
    {c : Context} {piece : Piece} {ls : List Line} (hcode : Code p c piece ls) :
    ∀ base h out, piece.Moves p base h out → Rated p (c.Leaves base) [] h ls out := by
  induction hcode with
  | literal | «variable» | constant =>
    intro base h out hmoves
    exact .line rfl rfl (Nat.zero_le _) rfl hmoves
  | operation heq hpops harity _ ih =>
    intro base h out hmoves
    have hop := Program.Expr.isOperation_line heq
    have hplain := Line.plain_of_isOperation hop
    refine (ih base h _ rfl).append (.line hplain.jump hplain.label ?_
      (Line.falls_of_isOperation hop) ?_)
    · rw [hpops]
      exact Nat.le_add_left _ _
    · rw [hpops, Nat.add_sub_cancel, ← harity]
      exact hmoves
  | group _ ih => exact fun base h out hmoves => ih base h out hmoves
  | cast _ hscalar ih =>
    intro base h out hmoves
    exact ih base h out (hmoves.trans (congrArg (h + ·) hscalar.symm))
  | @inlined c span f site args ls slots body callee hcallee hinline hlength _ hslots hbody iha ihb =>
    intro base h out hmoves
    obtain rfl : out = h + 1 := hmoves
    have hmem := mem_of_getElem? hcallee
    have hcount : slots.length = args.length := by
      rw [hslots.length_eq, length_map, hlength]
    have hinlined : Rated p (c.Leaves base) [] h _ (h + 1) := .inlined hmem hinline rfl hbody
      (ihb h h (h + 1) ⟨rfl, .inl (hterminates callee hmem)⟩)
    have hall := ((iha base h _ rfl).stored hcount).append hinlined
    rw [← append_assoc] at hall
    exact hall
  | @called c span f site args ls slots callee _ _ _ hlength _ hslots iha =>
    intro base h out hmoves
    have hcount : slots.length = args.length := by
      rw [hslots.length_eq, length_map, hlength]
    exact ((iha base h _ rfl).stored hcount).append (.line rfl rfl (Nat.zero_le _) rfl hmoves)
  | cond _ _ _ htest hyes hno iht ihy ihn =>
    intro base h out hmoves
    have hout : out = h + 1 := hmoves.trans (congrArg (h + ·) hyes)
    exact .twoWay rfl rfl (iht base h _ (congrArg (h + ·) htest.symm)) (ihy base h out hmoves)
      (ihn base h out (hout.trans (congrArg (h + ·) hno.symm)))
  | nil =>
    intro base h out hmoves
    obtain rfl : out = h := hmoves
    exact .nil
  | @cons c e rest ls ls' _ hscalar _ ihe ihr =>
    intro base h out hmoves
    refine (ihe base h (h + 1) (congrArg (h + ·) hscalar.symm)).append (ihr base (h + 1) out ?_)
    rw [Piece.Moves, length_cons] at hmoves
    rw [Piece.Moves, hmoves]
    omega
  | varDecl hlength _ hslots ih | assign hlength _ hslots ih =>
    rintro base _ out ⟨rfl, hterm | rfl⟩
    · cases hterm
    · exact (ih out out _ rfl).stored (hslots.length_eq.trans hlength)
  | constDecl =>
    rintro base _ out ⟨rfl, hterm | rfl⟩
    · cases hterm
    · exact .nil
  | setField _ hscalar ih =>
    rintro base _ out ⟨rfl, hterm | rfl⟩
    · cases hterm
    · exact (ih out out (out + 1) (congrArg (out + ·) hscalar.symm)).append
        (.line rfl rfl (Nat.le_add_left 1 out) rfl rfl)
  | innerBegin | innerSubmit =>
    rintro base _ out ⟨rfl, hterm | rfl⟩
    · cases hterm
    · exact .line rfl rfl (Nat.zero_le _) rfl rfl
  | @ret c span value ls _ hscalar ih =>
    rintro base h out ⟨rfl, _⟩
    have hvalue := ih h h (h + 1) (congrArg (h + ·) hscalar.symm)
    refine hvalue.append (.leaving c.exit.label?_line ?_ c.exit.falls_line (.inl ⟨rfl, rfl⟩))
    exact Nat.le_trans c.exit.pops_le (Nat.le_add_left 1 h)
  | error =>
    intro base h out _
    exact ⟨[(.err, h)], rfl, .last (Nat.zero_le h) rfl, .straight rfl ⟨nofun, nofun⟩ nofun, nofun⟩
  | ifThen _ hscalar _ iht ihy =>
    rintro base _ out ⟨rfl, hterm | rfl⟩
    · cases hterm
    · exact .oneWay rfl (iht out out _ (congrArg (out + ·) hscalar.symm))
        (ihy out out out ⟨rfl, .inr rfl⟩)
  | ifElse _ hscalar _ _ iht ihy ihn =>
    rintro base h out ⟨rfl, hout⟩
    have hways := hout.imp_left fun hterm => Bool.and_eq_true_iff.mp hterm
    exact .twoWay rfl rfl (iht h h _ (congrArg (h + ·) hscalar.symm))
      (ihy h h out ⟨rfl, hways.imp_left And.left⟩) (ihn h h out ⟨rfl, hways.imp_left And.right⟩)
  | @loop c span label test body lt lb _ hscalar _ iht ihb =>
    rintro base _ out ⟨rfl, hterm | rfl⟩
    · cases hterm
    · refine .loop rfl rfl (iht out out _ (congrArg (out + ·) hscalar.symm))
        ((ihb out out out ⟨rfl, .inr rfl⟩).weaken ?_)
      rintro line k (hexit | ⟨l, hloop, rfl, rfl⟩)
      · exact .inl (.inl hexit)
      · cases hloop
        exact .inr ⟨rfl, rfl⟩
  | breakLoop hloop =>
    rintro base _ out ⟨rfl, hterm | rfl⟩
    · cases hterm
    · exact .leaving rfl (Nat.zero_le _) rfl (.inr ⟨_, hloop, rfl, rfl⟩)
  | @exprStmt c span value ls _ ih =>
    rintro base _ out ⟨rfl, hterm | rfl⟩
    · cases hterm
    · have hpops : ∀ line ∈ List.replicate (value.arity p) Line.pop,
          line.Plain ∧ line.falls = true ∧ line.pops = 1 ∧ line.pushes = 0 := by
        intro line hline
        rw [eq_of_mem_replicate hline]
        exact ⟨⟨rfl, rfl, rfl⟩, rfl, rfl, rfl⟩
      have htaken : Rated p (c.Leaves out) [] _ _ out := .taking out 1 hpops
      rw [length_replicate, Nat.mul_one] at htaken
      exact (ih out out _ rfl).append htaken
  | blockNil =>
    rintro base _ out ⟨rfl, hterm | rfl⟩
    · cases hterm
    · exact .nil
  | @blockCons c s rest ls ls' _ hrest ihs ihr =>
    rintro base h out ⟨rfl, hout⟩
    cases rest with
    | nil =>
      cases hrest
      rw [append_nil]
      exact ihs h h out ⟨rfl, hout⟩
    | cons next rest => exact (ihs h h h ⟨rfl, .inr rfl⟩).append (ihr h h out ⟨rfl, hout⟩)

/-! ### Programs -/

section Programs

variable {p : Program}

/-- Where bodies that are not part of others end. -/
def AtEnd (line : Line) (h : Nat) : Prop := (line = .finish ∨ line = .returnCall) ∧ h = 1

variable {h i k out : Nat} {lines : List Line} {a : List (Line × Nat)}

theorem Context.Leaves.atEnd {exit : Exit} (hexit : ∀ l, exit ≠ .jump l) {line : Line}
    (hleaves : (Context.outer exit).Leaves 0 line h) : AtEnd line h := by
  rcases hleaves with ⟨rfl, hh⟩ | ⟨l, hloop, _⟩
  · cases exit with
    | finish => exact ⟨.inl rfl, hh⟩
    | returnCall => exact ⟨.inr rfl, hh⟩
    | jump l => exact absurd rfl (hexit l)
  · cases hloop

theorem SubroutinesCode.rated (hterminates : ∀ f ∈ p.functions, blockTerminates f.body = true)
    {fs : List Function} {ls : List Line} (h : SubroutinesCode p fs ls) (hfs : ∀ f ∈ fs, f ∈ p.functions) :
    ∃ marks, Rated p AtEnd marks 0 ls 0 ∧
      ∀ f ∈ fs, HasSubroutine f → (.subroutine f.name.text, 0) ∈ marks := by
  induction h with
  | nil => exact ⟨[], .nil, nofun⟩
  | @skip f rest ls hskip _ ih =>
    obtain ⟨marks, hrated, hmarks⟩ := ih fun g hg => hfs g (mem_cons_of_mem _ hg)
    refine ⟨marks, hrated, fun g hg hsub => ?_⟩
    rcases mem_cons.mp hg with rfl | hg
    · rw [hsub.1, hsub.2] at hskip
      cases hskip
    · exact hmarks g hg hsub
  | @cons f rest body ls _ _ hbody _ ih =>
    obtain ⟨marks, hrated, hmarks⟩ := ih fun g hg => hfs g (mem_cons_of_mem _ hg)
    have hinside : Rated p AtEnd [] 0 body 0 :=
      (hbody.rated hterminates 0 0 0 ⟨rfl, .inr rfl⟩).weaken fun _ _ hleaves => hleaves.atEnd (by simp)
    have hover : Rated p (orTo AtEnd [(.subroutineEnd f.name.text, 0)]) [] 0
        [.branch (.subroutineEnd f.name.text)] 0 :=
      .jump _ (mem_singleton_self _)
    have hsubroutine := (((hover.append (.label (l := .subroutine f.name.text) rfl)).append
      (hinside.widen _)).append (.label (l := .subroutineEnd f.name.text) rfl)).close (by simp)
    refine ⟨_, hsubroutine.append hrated, fun g hg hsub => ?_⟩
    rcases mem_cons.mp hg with rfl | hg
    · simp
    · exact mem_append_right _ (hmarks g hg hsub)

theorem ProgramCode.rated (hp : p.Sound) (h : ProgramCode p lines) :
    ∃ marks, Rated p AtEnd marks 0 lines 0 ∧
      ∀ f ∈ p.functions, HasSubroutine f → (.subroutine f.name.text, 0) ∈ marks := by
  cases h with
  | @mk globals subroutines body entry hentry hglobals hsubroutines hbody =>
    obtain ⟨marks, hrated, hmarks⟩ := hsubroutines.rated hp.terminates fun f hf => hf
    have hheader : Rated p AtEnd [] 0 ([.version p.version] ++ poolLines p.pool) 0 := by
      refine .taking 0 0 fun line hline => ⟨plain_header p line hline, ?_⟩
      rcases header_cases hline with rfl | rfl | rfl <;> exact ⟨rfl, rfl, rfl⟩
    have hg := (hglobals.rated hp.terminates 0 0 0 ⟨rfl, .inr rfl⟩).weaken fun line k hleaves =>
      hleaves.atEnd (by simp)
    have hb := (hbody.rated hp.terminates 0 0 0 ⟨rfl, .inr rfl⟩).weaken fun line k hleaves =>
      hleaves.atEnd (by simp)
    have hlast : Rated p AtEnd [(.programEnd, 0)] 0 [.label .programEnd] 0 := .label rfl
    refine ⟨_, (((hheader.append hg).append hrated).append hb).append hlast, fun f hf hsub => ?_⟩
    simp [hmarks f hf hsub]

/-! ### Heights by line numbers -/

def heightAt (annotated : List (Line × Nat)) (out i : Nat) : Nat :=
  (annotated[i]?.map Prod.snd).getD out

theorem heightAt_of_getElem? {annotated : List (Line × Nat)} {line : Line} (out : Nat)
    (h : annotated[i]? = some (line, k)) : heightAt annotated out i = k := by
  rw [heightAt, h]
  rfl

theorem Flow.heightAt_zero (hflow : Flow h a out) : heightAt a out 0 = h := by
  cases hflow <;> rfl

/-- Every line of a flow finds what it takes, and the next line finds what it leaves. -/
theorem Flow.step (hflow : Flow h a out) {line : Line} (hi : a[i]? = some (line, k)) :
    line.pops ≤ k ∧ (line.falls = true → heightAt a out (i + 1) = k - line.pops + line.pushes) := by
  induction hflow generalizing i with
  | nil => cases hi
  | falls hpops _ hrest ih =>
    cases i with
    | zero =>
      cases hi
      exact ⟨hpops, fun _ => hrest.heightAt_zero⟩
    | succ i => exact ih hi
  | leaves hpops hfalls _ ih =>
    cases i with
    | zero =>
      cases hi
      refine ⟨hpops, fun hfalls' => ?_⟩
      rw [hfalls] at hfalls'
      cases hfalls'
    | succ i => exact ih hi

/-- The body in place of a call, by the numbers of its first line and of its end. -/
theorem EndsInlined.exists_place {name : String} {path : List Nat}
    (hends : EndsInlined p a name path h) (out : Nat) : ∃ (k j : Nat) (f : Function) (c : Context),
      a[j]? = some (.label (.inBody (.inlineEnd name) path), h) ∧ k ≤ j ∧ f ∈ p.functions ∧
      f.inline = true ∧ f.name.text = name ∧ c.path = path ∧
      Code p c (.block f.body) (((a.map Prod.fst).take j).drop k) ∧ h = heightAt a out k + 1 := by
  obtain ⟨before, body, after, f, c, base, rfl, hf, hinline, hname, hpath, hcode, hbase, rfl⟩ := hends
  refine ⟨before.length, before.length + body.length, f, c, ?_, Nat.le_add_right _ _, hf, hinline,
    hname, hpath, ?_, ?_⟩
  · rw [← length_append, getElem?_append_right .refl, Nat.sub_self]
    rfl
  · rw [← map_take, ← map_drop, ← length_append, take_left, drop_left]
    exact hcode
  · cases body with
    | nil => cases hbase
    | cons first rest =>
      cases hbase
      rw [heightAt, append_assoc, getElem?_append_right .refl, Nat.sub_self]
      rfl

/-- Heights of the stack at the lines of a program. Inside of a subroutine they count from its entry. -/
structure StackDiscipline (p : Program) (lines : List Line) (height : Nat → Nat) : Prop where
  start : height 0 = 0
  enough : ∀ {i : Nat} {line}, lines[i]? = some line → line.pops ≤ height i
  next : ∀ {i : Nat} {line}, lines[i]? = some line → line.falls = true →
    height (i + 1) = height i - line.pops + line.pushes
  jump : ∀ {i j : Nat} {line l l'}, lines[i]? = some line → line.jump? = some l →
    lines[j]? = some (.label l') → l'.text = l.text → height j = height i - line.pops
  call : ∀ {i : Nat} {l}, lines[i]? = some (.call l) → height (i + 1) = height i + 1
  subroutine : ∀ {i : Nat} {name}, lines[i]? = some (.label (.subroutine name)) → height i = 0
  returnCall : ∀ {i : Nat}, lines[i]? = some .returnCall → height i = 1
  finish : ∀ {i : Nat}, lines[i]? = some .finish → height i = 1
  /-- A body that stands in place of a call is left one value above the height it is entered at. -/
  inlineEnd : ∀ {j : Nat} {name path}, lines[j]? = some (.label (.inBody (.inlineEnd name) path)) →
    ∃ (k : Nat) (f : Function) (c : Context), k ≤ j ∧ f ∈ p.functions ∧ f.inline = true ∧
      f.name.text = name ∧ c.path = path ∧ Code p c (.block f.body) ((lines.take j).drop k) ∧
      height j = height k + 1 ∧ ∀ {i : Nat} {l}, lines[i]? = some (.branch l) →
        l.text = (Label.inBody (.inlineEnd name) path).text → height i = height k + 1
  /-- The code of a statement ends at the height that it begins at, whatever that is. -/
  statement : ∀ {c : Context} {s : Stmt} {ls : List Line}, Code p c (.stmt s) ls →
    ∀ h, Rated p (c.Leaves h) [] h ls h

theorem ProgramCode.stackDiscipline (hp : p.Sound) (h : ProgramCode p lines) :
    ∃ height, StackDiscipline p lines height := by
  obtain ⟨marks, ⟨a, hmap, hflow, hsettled, hlabels⟩, hmarks⟩ := h.rated hp
  have hget : ∀ {i : Nat} {line}, lines[i]? = some line → ∃ k, a[i]? = some (line, k) := by
    intro i line hi
    rw [← hmap, getElem?_map, Option.map_eq_some_iff] at hi
    obtain ⟨⟨_, k⟩, hi, rfl⟩ := hi
    exact ⟨k, hi⟩
  have hline : ∀ {i k : Nat} {line}, a[i]? = some (line, k) → lines[i]? = some line := by
    intro i k line hi
    rw [← hmap, getElem?_map, hi]
    rfl
  have hat : ∀ {i : Nat} {line}, lines[i]? = some line → a[i]? = some (line, heightAt a 0 i) := by
    intro i line hi
    obtain ⟨k, hk⟩ := hget hi
    rw [heightAt_of_getElem? 0 hk]
    exact hk
  -- A label is found at one place only, so its height is known wherever it is found.
  have hheight : ∀ {j k : Nat} {l l' : Label}, (.label l, k) ∈ a → lines[j]? = some (.label l') →
      l'.text = l.text → heightAt a 0 j = k := by
    intro j k l l' hmem hj htext
    obtain ⟨j', hj'⟩ := mem_iff_getElem?.mp hmem
    rw [(h.label_unique hp.toWellBuilt hj (hline hj') htext).2]
    exact heightAt_of_getElem? 0 hj'
  have hjump : ∀ {i j : Nat} {line l l'}, lines[i]? = some line → line.jump? = some l →
      lines[j]? = some (.label l') → l'.text = l.text →
      heightAt a 0 j = heightAt a 0 i - line.pops := by
    intro i j line l l' hi hjump hj htext
    rcases hsettled.jumps (mem_of_getElem? (hat hi)) hjump with hlabel | ⟨hend, _⟩
    · exact hheight hlabel hj htext
    · rcases hend with rfl | rfl <;> cases hjump
  refine ⟨heightAt a 0, hflow.heightAt_zero, fun hi => (hflow.step (hat hi)).1,
    fun hi hfalls => (hflow.step (hat hi)).2 hfalls, hjump, fun hi => (hflow.step (hat hi)).2 rfl,
    ?_, ?_, ?_, ?_, ?_⟩
  · intro i name hi
    obtain ⟨f, hf, hsub, rfl⟩ := h.exists_function hp.toWellBuilt ⟨_, hi, rfl⟩
    exact hheight (hlabels _ _ (hmarks f hf hsub)) hi rfl
  · exact fun hi => (hsettled.exits (mem_of_getElem? (hat hi)) (.inr rfl)).2
  · exact fun hi => (hsettled.exits (mem_of_getElem? (hat hi)) (.inl rfl)).2
  · intro j name path hj
    obtain ⟨k, j', f, c, hj', hle, hf, hinline, hname, hpath, hcode, hk⟩ :=
      (hsettled.inlined (mem_of_getElem? (hat hj))).exists_place 0
    obtain rfl := (h.label_unique hp.toWellBuilt hj (hline hj') rfl).2
    rw [hmap] at hcode
    refine ⟨k, f, c, hle, hf, hinline, hname, hpath, hcode, hk, fun hi htext => ?_⟩
    exact (hjump hi rfl hj htext.symm).symm.trans hk
  · exact fun hcode k => hcode.rated hp.terminates k k k ⟨rfl, .inr rfl⟩

end Programs

end Teal.Assembly

namespace Teal

/-- What is built and checked without a fatal report is emitted with its stack in order. -/
theorem emit_stackDiscipline {ms : List Tree.SourceModule} {version : Nat} {p : Program}
    {ds : List Diagnostic} (hbuilt : Program.ofModules ms version = (some p, ds))
    (hds : ∀ d ∈ ds, d.isFatal = false) (htypes : ∀ d ∈ p.typeFaults, d.isFatal = false) :
    ∃ lines, p.emit = .ok lines ∧ ∃ height, Assembly.StackDiscipline p lines height := by
  have hp := sound_of_ofModules hbuilt hds htypes
  obtain ⟨lines, hlines, hcode⟩ := Assembly.emit_code hp
  exact ⟨lines, hlines, hcode.stackDiscipline hp⟩

theorem emit_stackDiscipline_sample :
    Program.ofModules Sample.modules 5 = (some Sample.program, []) ∧
      Sample.program.typeFaults = [] ∧
      ∃ lines, Sample.program.emit = .ok lines ∧
        ∃ height, Assembly.StackDiscipline Sample.program lines height :=
  ⟨Sample.ofModules_modules, Sample.typeFaults_program,
    emit_stackDiscipline Sample.ofModules_modules (by simp) (by simp [Sample.typeFaults_program])⟩

end Teal
