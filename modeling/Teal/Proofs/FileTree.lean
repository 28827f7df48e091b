import Mathlib.Tactic.SplitIfs
import Teal.FileTree
import Teal.Proofs.Text.Utf8

/-! Reading and writing in a tree of files. A write changes one place, to which its path leads from then on:
the walk to a directory never passes a place that is not one, so what is put there makes no difference to
it. Everything else that is asked of a tree leaves it as it is. -/

namespace Teal.FileTree

open List

variable {t t' : FileTree}

/-! ### Places -/

variable {α β : Type} {other start segments dir : List String} {name text : String}

theorem lookup_filter [BEq α] [LawfulBEq α] {a b : α} (h : a ≠ b) (l : List (α × β)) :
    (l.filter (·.1 != b)).lookup a = l.lookup a := by
  induction l with
  | nil => rfl
  | cons x l ih =>
    by_cases hx : x.1 = b
    · have hne : (a == x.1) = false := beq_eq_false_iff_ne.mpr (hx ▸ h)
      rw [filter_cons_of_neg (by simp [hx]), ih, lookup_cons, hne]
    · rw [filter_cons_of_pos (by simp [hx]), lookup_cons, lookup_cons, ih]

variable {place : List String} {p : Path}

theorem node?_put_self (h : place ≠ []) (t : FileTree) (n : Node) : (t.put place n).node? place = some n := by
  simp [node?, put, h]

theorem node?_put_ne (h : other ≠ place) (t : FileTree) (n : Node) :
    (t.put place n).node? other = t.node? other := by
  have hne : (other == place) = false := beq_eq_false_iff_ne.mpr h
  simp only [node?, put, lookup_cons, hne, lookup_filter h]

theorem isSome_node?_put (hplace : place ≠ []) (h : (t.node? other).isSome = true) (n : Node) :
    ((t.put place n).node? other).isSome = true := by
  by_cases hother : other = place
  · rw [hother, node?_put_self hplace]
    rfl
  · rw [node?_put_ne hother]
    exact h

/-! ### Walks -/

theorem exists_of_bind_eq_ok {ε : Type} {x : Except ε α} {f : α → Except ε β} {b : β}
    (h : x >>= f = .ok b) : ∃ a, x = .ok a ∧ f a = .ok b := by
  cases x with
  | error e => cases h
  | ok a => exact ⟨a, rfl, h⟩

/-- Where a segment leads from a place. -/
def step (t : FileTree) (place : List String) (s : String) : Except FileSystem.Fault (List String) :=
  match t.node? place with
  | some .dir =>
    if s == "" || s == "." then .ok place
    else if s == ".." then .ok place.dropLast
    else if FileSystem.maxName < s.utf8ByteSize then .error .nameTooLong
    else if (t.node? (place ++ [s])).isSome then .ok (place ++ [s])
    else .error .noEntry
  | some (.file _) => .error .notDirectory
  | none => .error .noEntry

theorem walk_cons (t : FileTree) (place : List String) (s : String) (rest : List String) :
    t.walk place (s :: rest) = t.step place s >>= fun next => t.walk next rest := by
  rw [walk, step]
  cases t.node? place with
  | none => rfl
  | some n =>
    cases n with
    | file bytes => rfl
    | dir =>
      dsimp only
      split_ifs <;> rfl

theorem walk_append (t : FileTree) (start : List String) (segments more : List String) :
    t.walk start (segments ++ more) = t.walk start segments >>= fun place => t.walk place more := by
  induction segments generalizing start with
  | nil => rfl
  | cons s rest ih => simp only [cons_append, walk_cons, ih, bind_assoc]

/-- What is put where no directory was makes no difference to a step that succeeds. -/
theorem step_put (hplace : place ≠ []) (hdir : t.node? place ≠ some .dir) (n : Node)
    {next : List String} {s : String} (h : t.step start s = .ok next) :
    (t.put place n).step start s = .ok next := by
  have hstart : t.node? start = some .dir := by
    rw [step] at h
    split at h
    · assumption
    · cases h
    · cases h
  have hne : start ≠ place := fun heq => hdir (heq ▸ hstart)
  simp only [step, hstart, node?_put_ne hne] at h ⊢
  split_ifs at h ⊢ with hstay hup hname hthere hput
  · exact h
  · exact h
  · exact h
  · next hsome => exact hthere (isSome_node?_put hplace hsome n)

/-- Nor does it to a walk, which never passes it. -/
theorem walk_put (hplace : place ≠ []) (hdir : t.node? place ≠ some .dir) (n : Node)
    (h : t.walk start segments = .ok dir) : (t.put place n).walk start segments = .ok dir := by
  induction segments generalizing start with
  | nil => exact h
  | cons s rest ih =>
    rw [walk_cons] at h ⊢
    obtain ⟨next, hstep, hrest⟩ := exists_of_bind_eq_ok h
    rw [step_put hplace hdir n hstep]
    exact ih hrest

/-! ### Writing -/

/-- The last segment and those before it, where the last one is not empty. -/
theorem segments_eq_of_dropWhile {above : List String}
    (h : segments.reverse.dropWhile (· == "") = name :: above) (hlast : segments.getLast? ≠ some "") :
    segments = above.reverse ++ [name] ∧ name ≠ "" := by
  cases hreverse : segments.reverse with
  | nil =>
    rw [hreverse] at h
    cases h
  | cons last before =>
    have hsegments := reverse_eq_cons_iff.mp hreverse
    have hne : last ≠ "" := by
      rintro rfl
      rw [hsegments, getLast?_concat] at hlast
      exact hlast rfl
    rw [hreverse, dropWhile_cons_of_neg (by simpa using hne)] at h
    obtain ⟨rfl, rfl⟩ := List.cons.inj h
    exact ⟨hsegments, hne⟩

/-- A path asks for a file of some name in a directory that is there. -/
structure Aims (t : FileTree) (p : Path) (dir : List String) (name : String) : Prop where
  walk : ∃ origin before, t.origin p = .ok origin ∧ p.segments = before ++ [name] ∧
    t.walk origin before = .ok dir
  isDir : t.node? dir = some .dir
  plain : name ≠ "" ∧ name ≠ "." ∧ name ≠ ".."
  short : ¬FileSystem.maxName < name.utf8ByteSize
  free : t.node? (dir ++ [name]) ≠ some .dir

/-- What a path asks for is where it leads once a file is put there. -/
theorem Aims.resolve_put (h : t.Aims p dir name) (n : Node) :
    (t.put (dir ++ [name]) n).resolve p = .ok (dir ++ [name]) := by
  obtain ⟨origin, before, horigin, hsegments, hwalk⟩ := h.walk
  obtain ⟨hempty, hdot, hdots⟩ := h.plain
  have hplace : dir ++ [name] ≠ [] := by simp
  have hdir : (t.put (dir ++ [name]) n).node? dir = some .dir := by
    rw [node?_put_ne (by simp), h.isDir]
  have hstep : (t.put (dir ++ [name]) n).step dir name = .ok (dir ++ [name]) := by
    simp [step, hdir, hempty, hdot, hdots, h.short, node?_put_self hplace]
  have hstart : (t.put (dir ++ [name]) n).origin p = .ok origin := horigin
  rw [resolve, hstart, hsegments]
  change (t.put (dir ++ [name]) n).walk origin (before ++ [name]) = _
  rw [walk_append, walk_put hplace h.free n hwalk]
  change (t.put (dir ++ [name]) n).walk dir [name] = _
  rw [walk_cons, hstep]
  rfl

/-- A write puts a file where its path asks for one. -/
theorem write_eq_ok (h : t.write p text = .ok t') :
    ∃ dir name, t.Aims p dir name ∧ t' = t.put (dir ++ [name]) (.file (Text.utf8 text.toList)) := by
  obtain ⟨origin, horigin, h⟩ := exists_of_bind_eq_ok h
  split at h
  · cases h
  · next name above hsegments =>
    obtain ⟨dir, hwalk, h⟩ := exists_of_bind_eq_ok h
    split at h
    · cases h
    · cases h
    · next hdir =>
      dsimp only at h
      split at h
      · cases h
      · next hspecial =>
        split at h
        · cases h
        · next hshort =>
          split at h
          · cases h
          · next hfree =>
            cases h
            simp only [Bool.or_eq_true, decide_eq_true_eq, beq_iff_eq, not_or] at hspecial
            obtain ⟨⟨hlast, hdot⟩, hdots⟩ := hspecial
            obtain ⟨hsegments, hempty⟩ := segments_eq_of_dropWhile hsegments hlast
            exact ⟨dir, name, ⟨⟨origin, _, horigin, hsegments, hwalk⟩, hdir, ⟨hempty, hdot, hdots⟩, hshort,
              hfree⟩, rfl⟩

/-! ### Reading -/

/-- A text that is read is what stands at the place that its path leads to. -/
theorem read_eq_ok (h : t.read p = .ok text) :
    ∃ place, t.resolve p = .ok place ∧ t.node? place = some (.file (Text.utf8 text.toList)) := by
  obtain ⟨n, hfind, h⟩ := exists_of_bind_eq_ok h
  obtain ⟨place, hresolve, hnode⟩ := exists_of_bind_eq_ok hfind
  refine ⟨place, hresolve, ?_⟩
  split at hnode
  · next hn =>
    cases hnode
    split at h
    · cases h
    · split at h
      · next hcs =>
        cases h
        rw [hn, String.toList_ofList, (Text.utf8_ofUtf8? hcs).1]
      · cases h
  · cases hnode

/-! ### Asking -/

/-- A computation leaves a tree as it is and yields a value with a given property. -/
def Answers {α : Type} (t : FileTree) (x : StateM FileTree α) (V : α → Prop) : Prop :=
  ∃ a, x.run t = (a, t) ∧ V a

section Answers

variable {α β : Type} {V : α → Prop} {W : β → Prop} {x : StateM FileTree α} {f : α → StateM FileTree β}

theorem answers_pure {a : α} (h : V a) : t.Answers (pure a) V := ⟨a, rfl, h⟩

/-- A computation that leaves the tree as it is, and another one with its value. -/
theorem run_bind_eq {a : α} (h : x.run t = (a, t)) : (x >>= f).run t = (f a).run t := by
  rw [StateT.run_bind, h]
  rfl

theorem answers_bind (hx : t.Answers x V) (hf : ∀ a, V a → t.Answers (f a) W) : t.Answers (x >>= f) W := by
  obtain ⟨a, hrun, ha⟩ := hx
  obtain ⟨b, hrun', hb⟩ := hf a ha
  exact ⟨b, (run_bind_eq hrun).trans hrun', hb⟩

/-- What is asked of the tree itself. -/
theorem answers_get (g : FileTree → α) : t.Answers (do return g (← get)) (· = g t) := ⟨g t, rfl, rfl⟩

end Answers

end Teal.FileTree
