import Teal.Proofs.Program.Mirror

/-! Breaks and the loops around them. A break is *stray* if no loop of its function is around it. The
builder reports the stray breaks, each once and in the order of the source, and words no other report like
that; so only the steps that meet a break have to be looked at, and all others are silent about it. Where
nothing fatal is reported, the program has the breaks of the source, with as many loops around them. -/

namespace Teal.Program

mutual

/-- The breaks in a statement of a program that has `depth` loops around it. -/
def Stmt.breaks (depth : Nat) : Stmt → List (Span × Nat)
  | .breakLoop span => [(span, depth)]
  | .ifThen _ _ _ yes => blockBreaks depth yes
  | .ifElse _ _ _ yes no => blockBreaks depth yes ++ blockBreaks depth no
  | .loop _ _ _ body => blockBreaks (depth + 1) body
  | .varDecl _ _ _ _ | .constDecl _ _ _ | .assign _ _ _ _ | .setField _ _ _ | .innerBegin _
  | .innerSubmit _ | .ret _ _ | .error _ | .expr _ _ => []

def blockBreaks (depth : Nat) : List Stmt → List (Span × Nat)
  | [] => []
  | s :: rest => s.breaks depth ++ blockBreaks depth rest

end

/-- The breaks of all functions, each with the number of loops of its function around it. -/
def breaks (p : Program) : List (Span × Nat) := p.functions.flatMap fun f => blockBreaks 0 f.body

end Teal.Program

/-! ### The wording of reports -/

namespace Teal

open List

/-- A text begins with other letters than `br`. -/
def Unlike (text : String) : Prop :=
  ∃ c rest, text.toList = c :: rest ∧ (c ≠ 'b' ∨ ∃ d others, rest = d :: others ∧ d ≠ 'r')

theorem unlike_first {c : Char} (rest : List Char) (h : c ≠ 'b') : Unlike (String.ofList (c :: rest)) :=
  ⟨c, rest, String.toList_ofList, .inl h⟩

theorem unlike_second {c d : Char} (others : List Char) (h : d ≠ 'r') :
    Unlike (String.ofList (c :: d :: others)) :=
  ⟨c, d :: others, String.toList_ofList, .inr ⟨d, others, rfl, h⟩⟩

theorem Unlike.append {text : String} (h : Unlike text) (more : String) : Unlike (text ++ more) := by
  obtain ⟨c, rest, htext, hletters⟩ := h
  refine ⟨c, rest ++ more.toList, by rw [String.toList_append, htext, cons_append], ?_⟩
  rcases hletters with hc | ⟨d, others, rfl, hd⟩
  · exact .inl hc
  · exact .inr ⟨d, others ++ more.toList, cons_append, hd⟩

theorem Unlike.ne {text : String} (h : Unlike text) : text ≠ "break outside of a loop" := by
  rintro rfl
  obtain ⟨c, rest, htext, hletters⟩ := h
  have hlist : "break outside of a loop".toList = 'b' :: 'r' :: "eak outside of a loop".toList := by
    simp
  rw [hlist] at htext
  obtain ⟨rfl, rfl⟩ := List.cons.inj htext
  rcases hletters with hc | ⟨d, others, hrest, hd⟩
  · exact hc rfl
  · exact hd (List.cons.inj hrest).1.symm

theorem Scopes.Fault.message_unlike (f : Scopes.Fault) : Unlike f.message := by
  cases f with
  | outOfSlots => exact unlike_first _ (by decide)
  | _ =>
    delta message
    simp only [String.append_assoc]
    exact (unlike_first _ (by decide)).append _

theorem Builtin.Fault.message_unlike (f : Builtin.Fault) : Unlike f.message := by
  cases f
  all_goals
    delta message
    simp only [String.append_assoc]
    exact (unlike_first _ (by decide)).append _

namespace Program

theorem Feature.text_unlike (feature : Feature) : Unlike feature.text := by
  cases feature with
  | builtin name => exact ((unlike_second _ (by decide)).append _).append _
  | subroutine | field => exact ((unlike_first _ (by decide)).append _).append _
  | _ => exact unlike_first _ (by decide)

-- The equations of `message` take long to derive, so it is unfolded without them.
theorem Fault.message_unlike {f : Fault} (h : f ≠ .breakOutside) : Unlike f.message := by
  cases f with
  | breakOutside => exact absurd rfl h
  | scope fault => exact fault.message_unlike
  | builtin fault => exact fault.message_unlike
  | builtinArguments =>
    delta message
    simp only [String.append_assoc]
    exact (unlike_second _ (by decide)).append _
  | tooOld feature =>
    delta message
    simp only [String.append_assoc]
    exact feature.text_unlike.append _
  | _ =>
    delta message
    simp only [String.append_assoc]
    exact (unlike_first _ (by decide)).append _

/-- The reports that are worded like that of a stray break. -/
def strayReports (ds : List Diagnostic) : List Diagnostic :=
  ds.filter fun d => d.message == "break outside of a loop"

theorem strayReports_append (ds ds' : List Diagnostic) :
    strayReports (ds ++ ds') = strayReports ds ++ strayReports ds' :=
  filter_append ..

theorem strayReports_other {f : Fault} (h : f ≠ .breakOutside) (span : Span) :
    strayReports [f.toDiagnostic span] = [] := by
  have hmessage : (f.toDiagnostic span).message ≠ "break outside of a loop" :=
    (Fault.message_unlike h).ne
  exact filter_cons_of_neg (by simpa using hmessage)

namespace Build

/-- Steps report stray breaks at the places of those breaks, and at no others. -/
theorem reports_points : Points Tree.anywhere fun _ spans _ _ m _ b _ =>
    strayReports (m.run b).2.diagnostics =
      strayReports b.diagnostics ++ spans.map Fault.breakOutside.toDiagnostic where
  of_pure _ _ _ _ := (append_nil _).symm
  of_bind hm hf := hf.trans (by rw [hm, map_append, append_assoc])
  of_look _ hf := hf
  of_change hg _ := (congrArg strayReports hg.diagnostics).trans (append_nil _).symm
  of_report _ _ _ _ _ hf _ _ := (strayReports_append _ _).trans (by rw [strayReports_other hf, map_nil])
  of_stray _ _ _ := strayReports_append _ _
  of_globals _ _ _ _ _ _ := (append_nil _).symm
  of_function _ _ _ := (append_nil _).symm

end Build

/-- The stray breaks of all modules are reported, each once and in their order. -/
theorem strayReports_ofModules (ms : List Tree.SourceModule) (version : Nat) :
    strayReports (ofModules ms version).2 =
      (Tree.strays ((items ms).flatMap Tree.Item.breaks)).map Fault.breakOutside.toDiagnostic := by
  obtain ⟨-, -, hbuilt⟩ := Build.program_linked Build.reports_points (Build.placed_moved_erase ms) _ _
    (.refl (.initial version))
  have hplaces : (Build.placed ms).flatMap (fun p => Tree.strays p.item.breaks) =
      Tree.strays ((items ms).flatMap Tree.Item.breaks) := by
    simp only [Build.placed, items, Tree.strays_flatMap, flatMap_assoc, flatMap_map]
  rw [hplaces] at hbuilt
  rcases hrun : (Build.program ms).run (.initial version) with ⟨_, b⟩
  rw [hrun] at hbuilt
  simp only [ofModules, hrun]
  cases b.entry with
  | some entry => exact hbuilt
  | none =>
    dsimp only
    rw [strayReports_append, strayReports_other (by simp), append_nil]
    exact hbuilt

/-! ### Breaks of a program without faults -/

mutual

theorem StmtMirrors.breaks_eq {s : Scopes} {next : Nat} {scope after : ScopeId} {tree : Tree.Stmt}
    {stmt : Stmt} (depth : Nat) :
    StmtMirrors s next scope tree stmt after → stmt.breaks depth = tree.breaks depth
  | .decl (.varDecl _ _ _) | .decl (.constDecl _ _ _ _) | .assign _ _ _ | .setField _ _ _
  | .innerBegin _ _ | .innerSubmit _ _ | .ret _ | .error | .breakLoop | .expr _ => rfl
  | .ifThen _ _ hyes => hyes.breaks_eq depth
  | .ifElse _ _ hyes _ hno => by
      rw [Stmt.breaks, Tree.Stmt.breaks, hyes.breaks_eq depth, hno.breaks_eq depth]
  | .loop _ _ hbody => hbody.breaks_eq (depth + 1)

theorem BlockMirrors.breaks_eq {s : Scopes} {next : Nat} {scope : ScopeId} {trees : List Tree.Stmt}
    {stmts : List Stmt} (depth : Nat) : BlockMirrors s next scope trees stmts →
      blockBreaks depth stmts = Tree.blockBreaks depth trees
  | .nil => rfl
  | .cons hstmt hrest => by
      rw [blockBreaks, Tree.blockBreaks, hstmt.breaks_eq depth, hrest.breaks_eq depth]

end

theorem ItemsMirror.breaks_eq {s : Scopes} {items : List Tree.Item} {tip : ScopeId}
    {globals : List Stmt} {functions : List Function} (h : ItemsMirror s items tip globals functions) :
    functions.flatMap (fun f => blockBreaks 0 f.body) = items.flatMap Tree.Item.breaks := by
  induction h with
  | start => rfl
  | decl _ _ ih => simpa [Tree.Item.breaks] using ih
  | function _ hfunction _ ih => simp [Tree.Item.breaks, ih, hfunction.body.breaks_eq 0]

end Program

end Teal
