import Teal.Proofs.Scope.Lookup

/-! Slots of variables. Whatever is done to a tree of scopes, in whatever order and with whatever
failures, its variables have the slots from 0 up to the number in use, each of them once. The invariant
`Valid` says so of one tree; every operation keeps it. -/

namespace Teal

open List

def Symbol.Kind.slot? : Symbol.Kind → Option Nat
  | .variable slot => some slot
  | _ => none

namespace Scopes

def symbols (s : Scopes) : List Symbol := s.arena.toList.flatMap (·.symbols)

def slots (s : Scopes) : List Nat := s.symbols.filterMap (·.kind.slot?)

def parent? (s : Scopes) (id : ScopeId) : Option ScopeId := s.arena[id]?.bind (·.parent)

def namesOf (s : Scopes) (id : ScopeId) : List String :=
  ((s.arena[id]?.map (·.symbols)).getD []).map (·.name)

variable {kind : Symbol.Kind} {s : Scopes} {id : ScopeId}

theorem slot?_eq_some {k : Nat} : kind.slot? = some k ↔ kind = .variable k := by
  cases kind <;> simp [Symbol.Kind.slot?]

theorem slot?_eq_none (h : kind.isVariable = false) : kind.slot? = none := by
  cases kind with
  | «variable» slot => cases h
  | _ => rfl

theorem Declares.mem_symbols {x : Symbol} (h : s.Declares id x) : x ∈ s.symbols := by
  obtain ⟨scope, hscope, hx⟩ := h
  exact mem_flatMap.mpr ⟨scope, Array.mem_toList_iff.mpr (Array.mem_of_getElem? hscope), hx⟩

theorem Declares.mem_slots {x : Symbol} {k : Nat} (h : s.Declares id x) (hk : x.kind = .variable k)
    : k ∈ s.slots :=
  mem_filterMap.mpr ⟨x, h.mem_symbols, slot?_eq_some.mpr hk⟩

theorem mem_namesOf {name : String} : name ∈ s.namesOf id ↔ ∃ x, s.Declares id x ∧ x.name = name := by
  cases hscope : s.arena[id]? <;> simp [namesOf, Declares, hscope]

theorem parent?_lt_size {parent : ScopeId} (h : s.parent? id = some parent) : id < s.arena.size := by
  obtain ⟨scope, hscope, _⟩ := Option.bind_eq_some_iff.mp h
  exact (Array.getElem?_eq_some_iff.mp hscope).1

/-! ### What the operations change -/

section Open

variable (s : Scopes) (kind : Scope.Kind) (parent : ScopeId)

theorem slots_openScope : (s.openScope kind parent).2.slots = s.slots := by
  simp [slots, symbols, openScope]

theorem parent?_openScope (id : ScopeId) : (s.openScope kind parent).2.parent? id =
    if id = s.arena.size then some parent else s.parent? id := by
  by_cases hid : id = s.arena.size <;> simp [parent?, openScope, Array.getElem?_push, hid]

theorem baseSlot_openScope (id : ScopeId) : (s.openScope kind parent).2.baseSlot id =
    if id = s.arena.size then s.used else s.baseSlot id := by
  by_cases hid : id = s.arena.size <;> simp [baseSlot, openScope, Array.getElem?_push, hid]

theorem namesOf_openScope (id : ScopeId) : (s.openScope kind parent).2.namesOf id = s.namesOf id := by
  by_cases hid : id = s.arena.size <;> simp [namesOf, openScope, Array.getElem?_push, hid]

end Open

section Insert

variable {s : Scopes} {id : ScopeId} (symbol : Symbol)

theorem symbols_insert (hid : id < s.arena.size) :
    (s.insert id symbol).symbols.Perm (symbol :: s.symbols) := by
  obtain ⟨before, scope, after, harena, _, hmodify⟩ :=
    exists_of_modify (fun sc : Scope => { sc with symbols := sc.symbols ++ [symbol] })
      (l := s.arena.toList) (i := id) (by simpa using hid)
  rw [symbols, symbols, insert, Array.toList_modify, hmodify, harena]
  simp only [flatMap_append, flatMap_cons, ← append_assoc]
  rw [append_assoc _ [symbol], singleton_append]
  exact perm_middle

theorem slots_insert (hid : id < s.arena.size) :
    (s.insert id symbol).slots.Perm (symbol.kind.slot?.toList ++ s.slots) := by
  have hperm := (symbols_insert symbol hid).filterMap (·.kind.slot?)
  rw [filterMap_cons] at hperm
  cases hslot : symbol.kind.slot? with
  | none =>
    rw [hslot] at hperm
    exact hperm
  | some k =>
    rw [hslot] at hperm
    exact hperm

theorem parent?_insert (i : ScopeId) : (s.insert id symbol).parent? i = s.parent? i := by
  by_cases hi : id = i
  · cases hscope : s.arena[i]? <;> simp [parent?, insert, Array.getElem?_modify, hi, hscope]
  · simp [parent?, insert, Array.getElem?_modify, hi]

theorem baseSlot_insert (i : ScopeId) : (s.insert id symbol).baseSlot i = s.baseSlot i := by
  by_cases hi : id = i
  · cases hscope : s.arena[i]? <;> simp [baseSlot, insert, Array.getElem?_modify, hi, hscope]
  · simp [baseSlot, insert, Array.getElem?_modify, hi]

theorem namesOf_insert (hid : id < s.arena.size) (i : ScopeId) : (s.insert id symbol).namesOf i =
    if i = id then s.namesOf i ++ [symbol.name] else s.namesOf i := by
  by_cases hi : i = id
  · subst hi
    rw [namesOf, insert, Array.getElem?_modify, if_pos rfl, Array.getElem?_eq_getElem hid]
    simp [namesOf, hid]
  · simp [namesOf, insert, Array.getElem?_modify, hi, Ne.symm hi]

end Insert

/-! ### The invariant -/

/-- The variables of a tree have the slots in use, each of them once; a scope was opened after its
parent, with no fewer slots in use; and no scope holds a name twice. -/
structure Valid (s : Scopes) : Prop where
  used_le : s.used ≤ maxSlots
  slots : s.slots.Perm (List.range s.used)
  base_le : ∀ id, s.baseSlot id ≤ s.used
  parents : ∀ {id parent}, s.parent? id = some parent →
    parent < id ∧ s.baseSlot parent ≤ s.baseSlot id
  names : ∀ id, (s.namesOf id).Nodup

theorem eq_of_nodup_filterMap {α β : Type} {f : α → Option β} {l : List α}
    (h : (l.filterMap f).Nodup) {x y : α} {k : β} (hx : x ∈ l) (hy : y ∈ l) (hfx : f x = some k)
    (hfy : f y = some k) : x = y := by
  induction l with
  | nil => cases hx
  | cons a l ih =>
    cases ha : f a with
    | none =>
      rw [filterMap_cons_none ha] at h
      have hne : ∀ {z}, f z = some k → z ≠ a := by
        rintro z hz rfl
        rw [ha] at hz
        cases hz
      exact ih h (mem_of_ne_of_mem (hne hfx) hx) (mem_of_ne_of_mem (hne hfy) hy)
    | some j =>
      rw [filterMap_cons_some ha, nodup_cons] at h
      have hmem : ∀ {z}, z ∈ l → f z = some k → j ≠ k := by
        rintro z hz hfz rfl
        exact h.1 (mem_filterMap.mpr ⟨z, hz, hfz⟩)
      rcases mem_cons.mp hx with rfl | hx'
      · rcases mem_cons.mp hy with rfl | hy'
        · rfl
        · rw [ha, Option.some.injEq] at hfx
          exact absurd hfx (hmem hy' hfy)
      · rcases mem_cons.mp hy with rfl | hy'
        · rw [ha, Option.some.injEq] at hfy
          exact absurd hfy (hmem hx' hfx)
        · exact ih h.2 hx' hy'

namespace Valid

variable {s : Scopes}

theorem nodup_slots (h : s.Valid) : s.slots.Nodup := h.slots.nodup_iff.mpr nodup_range

theorem slot_lt (h : s.Valid) {i : ScopeId} {x : Symbol} {k : Nat} (hx : s.Declares i x)
    (hk : x.kind = .variable k) : k < s.used :=
  mem_range.mp (h.slots.mem_iff.mp (hx.mem_slots hk))

/-- Two symbols of one slot are the same symbol of the same scope. -/
theorem slot_unique (h : s.Valid) {i j : ScopeId} {x y : Symbol} {k : Nat} (hx : s.Declares i x)
    (hy : s.Declares j y) (hxk : x.kind = .variable k) (hyk : y.kind = .variable k) : i = j ∧ x = y := by
  refine ⟨?_, eq_of_nodup_filterMap h.nodup_slots hx.mem_symbols hy.mem_symbols
    (slot?_eq_some.mpr hxk) (slot?_eq_some.mpr hyk)⟩
  have hnodup := h.nodup_slots
  rw [Scopes.slots, symbols, filterMap_flatMap, List.Nodup, pairwise_flatMap] at hnodup
  -- Scopes at two places of the arena have no slot in common.
  have hapart : ∀ {i j : ScopeId} {a c : Scope} {x y : Symbol}, i < j → s.arena[i]? = some a →
      s.arena[j]? = some c → x ∈ a.symbols → y ∈ c.symbols → x.kind = .variable k →
      y.kind ≠ .variable k := by
    intro i j a c x y hlt ha hc hxa hyc hxk hyk
    obtain ⟨hi, rfl⟩ := Array.getElem?_eq_some_iff.mp ha
    obtain ⟨hj, rfl⟩ := Array.getElem?_eq_some_iff.mp hc
    have hdisjoint := pairwise_iff_getElem.mp hnodup.2 i j hi hj hlt
    exact hdisjoint k (mem_filterMap.mpr ⟨x, hxa, slot?_eq_some.mpr hxk⟩)
      k (mem_filterMap.mpr ⟨y, hyc, slot?_eq_some.mpr hyk⟩) rfl
  obtain ⟨a, ha, hxa⟩ := hx
  obtain ⟨c, hc, hyc⟩ := hy
  rcases Nat.lt_trichotomy i j with hlt | heq | hgt
  · exact absurd hyk (hapart hlt ha hc hxa hyc hxk)
  · exact heq
  · exact absurd hxk (hapart hgt hc ha hyc hxa hyk)

theorem initial : Valid Scopes.initial where
  used_le := Nat.zero_le _
  slots := .nil
  base_le id := by cases id <;> simp [baseSlot, Scopes.initial]
  parents {id parent} h := by cases id <;> simp [parent?, Scopes.initial] at h
  names id := by cases id <;> simp [namesOf, Scopes.initial]

theorem openScope (h : s.Valid) (kind : Scope.Kind) {parent : ScopeId}
    (hparent : parent < s.arena.size) : (s.openScope kind parent).2.Valid where
  used_le := h.used_le
  slots := by
    rw [slots_openScope]
    exact h.slots
  base_le id := by
    rw [baseSlot_openScope]
    split
    · exact .refl
    · exact h.base_le id
  parents {id outer} houter := by
    rw [parent?_openScope] at houter
    rw [baseSlot_openScope, baseSlot_openScope]
    split at houter
    · next hid =>
      cases houter
      rw [if_pos hid, if_neg (Nat.ne_of_lt hparent)]
      exact ⟨hid ▸ hparent, h.base_le parent⟩
    · next hid =>
      obtain ⟨hlt, hle⟩ := h.parents houter
      have hold := parent?_lt_size houter
      rw [if_neg hid, if_neg (Nat.ne_of_lt (Nat.lt_trans hlt hold))]
      exact ⟨hlt, hle⟩
  names id := by
    rw [namesOf_openScope]
    exact h.names id

section Insert

variable (h : s.Valid) {id : ScopeId} (hid : id < s.arena.size) {symbol : Symbol}
  (hfresh : ∀ x, s.Declares id x → x.name ≠ symbol.name)

include h hid hfresh

/-- No scope holds a name twice when a name is added that it did not hold. -/
theorem nodup_namesOf_insert (i : ScopeId) : ((s.insert id symbol).namesOf i).Nodup := by
  rw [namesOf_insert symbol hid]
  split
  · next hi =>
    subst hi
    have hnotMem : symbol.name ∉ s.namesOf i := by
      intro hmem
      obtain ⟨x, hx, hname⟩ := mem_namesOf.mp hmem
      exact hfresh x hx hname
    exact (perm_append_singleton _ _).nodup_iff.mpr (nodup_cons.mpr ⟨hnotMem, h.names i⟩)
  · exact h.names i

/-- A symbol without slot keeps the slots as they are. -/
theorem insert (hkind : symbol.kind.isVariable = false) : (s.insert id symbol).Valid where
  used_le := h.used_le
  slots := by
    have hperm := slots_insert symbol hid
    rw [slot?_eq_none hkind] at hperm
    exact hperm.trans h.slots
  base_le i := by
    rw [baseSlot_insert]
    exact h.base_le i
  parents hparent := by
    rw [parent?_insert] at hparent
    rw [baseSlot_insert, baseSlot_insert]
    exact h.parents hparent
  names := h.nodup_namesOf_insert hid hfresh

theorem insertVariable (hused : s.used < maxSlots) (hkind : symbol.kind = .variable s.used) :
    Valid { s.insert id symbol with used := s.used + 1 } where
  used_le := hused
  slots := by
    have hperm := slots_insert symbol hid
    rw [hkind] at hperm
    rw [range_succ]
    exact (hperm.trans (h.slots.cons _)).trans (perm_append_singleton _ _).symm
  base_le i := by
    have hbase : (s.insert id symbol).baseSlot i = s.baseSlot i := baseSlot_insert symbol i
    exact Nat.le_succ_of_le (hbase ▸ h.base_le i)
  parents {i parent} hparent := by
    have hold : s.parent? i = some parent := (parent?_insert symbol i).symm.trans hparent
    have hparents := h.parents hold
    rw [← baseSlot_insert symbol, ← baseSlot_insert symbol i] at hparents
    exact hparents
  names := h.nodup_namesOf_insert hid hfresh

end Insert

end Valid

/-! ### Runs of operations -/

/-- What may be done to a tree of scopes. -/
inductive Operation where
  | newBlock (parent : ScopeId)
  | newDecl (parent : ScopeId)
  | declareVariable (scope : ScopeId) (name : Ident) (ty : Ty)
  | declareConstant (scope : ScopeId) (name : Ident) (ty : Ty) (value : Pool.Ref)
  | declareFunction (scope : ScopeId) (name : Ident) (index : Nat) (returnTy : Ty)
  | declareRuntime (scope : ScopeId) (name : Ident) (runtime : Runtime)
deriving DecidableEq

inductive Answer where
  | opened (id : ScopeId)
  | slot (n : Nat)
  | declared
  | refused (fault : Fault)
deriving DecidableEq

def Answer.slot? : Answer → Option Nat
  | .slot n => some n
  | _ => none

namespace Operation

def scope : Operation → ScopeId
  | .newBlock parent | .newDecl parent => parent
  | .declareVariable scope _ _ | .declareConstant scope _ _ _ | .declareFunction scope _ _ _
  | .declareRuntime scope _ _ => scope

/-- Declaring a name that needs no slot; the tree stays as it is if that is refused. -/
def declared (s : Scopes) (id : ScopeId) (name : Ident) (ty : Ty) (kind : Symbol.Kind) :
    Answer × Scopes :=
  match s.declare id name ty kind with
  | .ok t => (.declared, t)
  | .error fault => (.refused fault, s)

/-- The answer of an operation and the tree after it. -/
def apply (s : Scopes) : Operation → Answer × Scopes
  | .newBlock parent => (.opened (s.openScope .block parent).1, (s.openScope .block parent).2)
  | .newDecl parent => (.opened (s.openScope .decl parent).1, (s.openScope .decl parent).2)
  | .declareVariable scope name ty =>
    match s.declareVariable scope name ty with
    | .ok (slot, t) => (.slot slot, t)
    | .error fault => (.refused fault, s)
  | .declareConstant scope name ty value => declared s scope name ty (.constant value)
  | .declareFunction scope name index returnTy => declared s scope name returnTy (.function index)
  | .declareRuntime scope name runtime => declared s scope name .unknown (.runtime runtime)

end Operation

/-- The answers of operations that are done one after the other, and the tree after them; nothing if
one of them works on a scope that does not exist. -/
def run? (s : Scopes) : List Operation → Option (List Answer × Scopes)
  | [] => some ([], s)
  | op :: ops =>
    if op.scope < s.arena.size then do
      let (answers, t) ← run? (op.apply s).2 ops
      return ((op.apply s).1 :: answers, t)
    else none

/-- A step from a valid tree leads to a valid one, and answers with a slot just if it takes the next. -/
structure Advances (s : Scopes) (answer : Answer) (t : Scopes) : Prop where
  valid : t.Valid
  used : List.range s.used ++ answer.slot?.toList = List.range t.used

theorem Operation.declared_advances (h : s.Valid) (hid : id < s.arena.size) (name : Ident) (ty : Ty)
    (hkind : kind.isVariable = false) :
    Advances s (declared s id name ty kind).1 (declared s id name ty kind).2 := by
  unfold declared
  split
  · next t ht =>
    obtain ⟨hpermits, rfl⟩ := declare_eq_ok ht
    exact ⟨h.insert hid (fresh_of_permits hpermits).1 hkind, append_nil _⟩
  · exact ⟨h, append_nil _⟩

theorem Operation.apply_advances (h : s.Valid) {op : Operation} (hscope : op.scope < s.arena.size)
    : Advances s (op.apply s).1 (op.apply s).2 := by
  cases op with
  | newBlock parent => exact ⟨h.openScope .block hscope, append_nil _⟩
  | newDecl parent => exact ⟨h.openScope .decl hscope, append_nil _⟩
  | declareVariable scope name ty =>
    rw [apply]
    split
    · next slot t ht =>
      obtain ⟨hpermits, hused, rfl, rfl⟩ := declareVariable_eq_ok ht
      exact ⟨h.insertVariable hscope (fresh_of_permits hpermits).1 hused rfl,
        range_succ.symm⟩
    · exact ⟨h, append_nil _⟩
  | declareConstant scope name ty value => exact declared_advances h hscope name ty rfl
  | declareFunction scope name index returnTy => exact declared_advances h hscope name returnTy rfl
  | declareRuntime scope name runtime => exact declared_advances h hscope name .unknown rfl

/-- Along a run the slots are given out in order. -/
theorem run?_advances {ops : List Operation} : ∀ {s t : Scopes} {answers : List Answer}, s.Valid →
    run? s ops = some (answers, t) →
    t.Valid ∧ List.range s.used ++ answers.filterMap Answer.slot? = List.range t.used := by
  induction ops with
  | nil =>
    intro s t answers hs h
    cases h
    exact ⟨hs, append_nil _⟩
  | cons op ops ih =>
    intro s t answers hs h
    rw [run?] at h
    split at h
    · next hscope =>
      have hstep := Operation.apply_advances hs hscope
      obtain ⟨⟨rest, u⟩, hrest, heq⟩ := Option.bind_eq_some_iff.mp h
      cases heq
      obtain ⟨hvalid, hslots⟩ := ih hstep.valid hrest
      refine ⟨hvalid, ?_⟩
      rw [← hslots, ← hstep.used, append_assoc]
      cases hslot : (op.apply s).1.slot? with
      | none => rw [filterMap_cons_none hslot, Option.toList_none, nil_append]
      | some slot => rw [filterMap_cons_some hslot, Option.toList_some, singleton_append]
    · cases h

end Scopes

end Teal
