import Teal.Proofs.Compile.Total

/-! Nothing of a source is left out of a program. An outline tells the kind and the place of a statement,
the names on its left side, and the outlines of its blocks. It is taken of the source and of the program
alike, and the two agree where nothing fatal is reported. -/

namespace Teal

/-- What a statement is, its expressions apart. -/
inductive Outline where
  | decl (span : Span) (isConst : Bool) (names : List Ident)
  | assign (span : Span) (targets : List Tree.Target)
  | setField (span : Span) (field : String)
  | method (span : Span) (name : String)
  | ret (span : Span)
  | error (span : Span)
  | breakLoop (span : Span)
  | ifThen (span : Span) (yes : List Outline)
  | ifElse (span : Span) (yes no : List Outline)
  | loop (span : Span) (body : List Outline)
  | expr (span : Span)

/-- What a function is, with the outlines of its statements. -/
structure FunctionOutline where
  span : Span
  inline : Bool
  name : Ident
  params : List Ident
  body : List Outline

namespace Tree

mutual

def Stmt.outline : Stmt → Outline
  | .decl span d => .decl span d.isConst d.names
  | .assign span (.field _ _ field) [] _ => .setField span field.text
  | .assign span first others _ => .assign span (first :: others)
  | .ret span _ => .ret span
  | .error span => .error span
  | .breakLoop span => .breakLoop span
  | .ifThen span _ _ yes => .ifThen span (blockOutline yes)
  | .ifElse span _ _ yes _ no => .ifElse span (blockOutline yes) (blockOutline no)
  | .loop span _ _ body => .loop span (blockOutline body)
  | .expr span (.method _ _ method _) => .method span method.text
  | .expr span _ => .expr span

def blockOutline : List Stmt → List Outline
  | [] => []
  | s :: rest => s.outline :: blockOutline rest

end

def Item.declOutline? : Item → Option Outline
  | .decl span d => some (.decl span d.isConst d.names)
  | .function _ _ => none

def Item.functionOutline? : Item → Option FunctionOutline
  | .decl _ _ => none
  | .function span f =>
    some ⟨span, f.inline, f.name, f.params.map (·.name), blockOutline f.body.stmts⟩

end Tree

namespace Program

mutual

def Stmt.outline : Stmt → Outline
  | .varDecl span _ names _ => .decl span false names
  | .constDecl span name _ => .decl span true [name]
  | .assign span _ targets _ => .assign span (targets.map fun name => .var name.span name.text)
  | .setField span field _ => .setField span field.name
  | .innerBegin span => .method span "begin"
  | .innerSubmit span => .method span "submit"
  | .ret span _ => .ret span
  | .error span => .error span
  | .ifThen span _ _ yes => .ifThen span (blockOutline yes)
  | .ifElse span _ _ yes no => .ifElse span (blockOutline yes) (blockOutline no)
  | .loop span _ _ body => .loop span (blockOutline body)
  | .breakLoop span => .breakLoop span
  | .expr span _ => .expr span

def blockOutline : List Stmt → List Outline
  | [] => []
  | s :: rest => s.outline :: blockOutline rest

end

def Function.outline (f : Function) : FunctionOutline :=
  ⟨f.span, f.inline, f.name, f.params.map (·.1), blockOutline f.body⟩

variable {s : Scopes} {scope after : ScopeId}

theorem DeclMirrors.outline {span : Span} {decl : Tree.Decl} {stmt : Stmt}
    (h : DeclMirrors s scope span decl stmt after) : stmt.outline = .decl span decl.isConst decl.names := by
  cases h with
  | varDecl hconst => rw [Stmt.outline, hconst]
  | constDecl hconst hnames => rw [Stmt.outline, hconst, hnames]

/-- Names that are assigned are no fields. -/
theorem outline_assign {span : Span} {first : Tree.Target} {others : List Tree.Target}
    {names : List Ident} {value : Tree.Expr}
    (h : first :: others = names.map fun name => .var name.span name.text) :
    (Tree.Stmt.assign span first others value).outline =
      .assign span (names.map fun name => .var name.span name.text) := by
  cases names with
  | nil => cases h
  | cons name names =>
    obtain ⟨rfl, rfl⟩ := List.cons.inj h
    rfl

/-- An expression that is built is no call of a method. -/
theorem outline_expr {R : Reading} {span : Span} {tree : Tree.Expr} {e : Expr} (h : e.Mirrors R tree) :
    (Tree.Stmt.expr span tree).outline = .expr span := by
  cases h <;> rfl

mutual

theorem StmtMirrors.outline {next : Nat} {scope after : ScopeId} {tree : Tree.Stmt} {stmt : Stmt} :
    StmtMirrors s next scope tree stmt after → stmt.outline = tree.outline
  | .decl hdecl => hdecl.outline
  | .assign htargets _ _ => (outline_assign htargets).symm
  | .setField _ hname _ => congrArg _ hname
  | .innerBegin _ hmethod => congrArg _ hmethod.symm
  | .innerSubmit _ hmethod => congrArg _ hmethod.symm
  | .ret _ => rfl
  | .error => rfl
  | .breakLoop => rfl
  | .ifThen _ _ hyes => congrArg _ hyes.outline
  | .ifElse _ _ hyes _ hno => by
      rw [Stmt.outline, Tree.Stmt.outline, hyes.outline, hno.outline]
  | .loop _ _ hbody => congrArg _ hbody.outline
  | .expr hvalue => (outline_expr hvalue).symm

/-- Block by block, one statement stands for each of the source, at the same position. -/
theorem BlockMirrors.outline {next : Nat} {scope : ScopeId} {trees : List Tree.Stmt}
    {stmts : List Stmt} : BlockMirrors s next scope trees stmts → blockOutline stmts = Tree.blockOutline trees
  | .nil => rfl
  | .cons hstmt hrest => by
      rw [blockOutline, Tree.blockOutline, hstmt.outline, hrest.outline]

end

theorem Function.Mirrors.outline {span : Span} {tree : Tree.Function} {f : Function}
    (h : f.Mirrors s scope span tree) : some f.outline = (Tree.Item.function span tree).functionOutline? := by
  rw [Function.outline, h.span, h.inline, h.name, h.params, h.body.outline]
  rfl

theorem ItemsMirror.outlines {items : List Tree.Item} {tip : ScopeId} {globals : List Stmt}
    {functions : List Function} (h : ItemsMirror s items tip globals functions) :
    globals.map Stmt.outline = items.filterMap Tree.Item.declOutline? ∧
      functions.map Function.outline = items.filterMap Tree.Item.functionOutline? := by
  induction h with
  | start => exact ⟨rfl, rfl⟩
  | decl _ hdecl ih => simp [ih, hdecl.outline, Tree.Item.declOutline?, Tree.Item.functionOutline?]
  | function _ hfunction _ ih =>
    simp [ih, ← hfunction.outline, Tree.Item.declOutline?]

end Program

namespace Sample

open Teal.Tree

def spot (n : UInt32) : Span := ⟨0, n, n + 1⟩

def param (name : String) : Param := ⟨ident name, none⟩

def first : Stmt := .decl (spot 8) ⟨false, [⟨"x", spot 9⟩], call "next" [var "x"]⟩

def branch : List Stmt :=
  [.decl (spot 12) ⟨false, [⟨"x", spot 13⟩], call "next" [var "x"]⟩, .ret (spot 14) (var "x")]

def rest : List Stmt :=
  [.ifElse (spot 10) (binary .lt (var "x") (var "step")) (spot 11) branch
      (spot 15) [.assign (spot 16) (.var (spot 17) "x") [] (call "next" [var "x"])],
    .ret (spot 18) (var "x")]

def entry : Function :=
  ⟨false, ident "logic", [param "txn", param "gtxn", param "args"], ⟨spot 7, first :: rest⟩⟩

/-- Two modules. A variable of the first is hidden by one of the second, which is hidden again inside of
a branch, and each is declared from what its name stood for before. -/
def shadowed : List SourceModule :=
  [⟨"library", 1, ⟨[],
      [.decl (spot 0) ⟨true, [ident "step"], int 2⟩,
        .decl (spot 1) ⟨false, [⟨"x", spot 2⟩], int 5⟩,
        .function (spot 3) ⟨true, ident "next", [param "n"], ⟨spot 4,
          [.ret (spot 5) (binary .add (var "n") (var "step"))]⟩⟩]⟩, false⟩,
    ⟨"main", 0, ⟨[], [.function (spot 6) entry]⟩, true⟩]

theorem isEmpty_shadowed : (Program.ofModules shadowed 5).2.isEmpty = true := by decide +kernel

end Sample

/-- Where nothing fatal is reported, a program is built that leaves nothing out: a function for each
function of the modules and a statement for each declaration between them, in their order, and in every
block a statement for each of the source, of the same kind, at the same position and with the same place.
The same holds of all expressions in them. -/
theorem ofModules_outline (ms : List Tree.SourceModule) (version : Nat)
    (hquiet : ∀ d ∈ (Program.ofModules ms version).2, d.isFatal = false) :
    ∃ p, (Program.ofModules ms version).1 = some p ∧
      p.functions.map Program.Function.outline =
        (Program.items ms).filterMap Tree.Item.functionOutline? ∧
      p.globals.map Program.Stmt.outline = (Program.items ms).filterMap Tree.Item.declOutline? ∧
      ∃ tip, Program.ItemsMirror p.scopes (Program.items ms) tip p.globals p.functions := by
  obtain ⟨built, ds, hbuilt⟩ : ∃ built ds, Program.ofModules ms version = (built, ds) := ⟨_, _, rfl⟩
  rw [hbuilt] at hquiet ⊢
  cases built with
  | none =>
    obtain ⟨d, hd, hfatal⟩ := exists_fatal_of_ofModules_none hbuilt
    rw [hquiet d hd] at hfatal
    cases hfatal
  | some p =>
    obtain ⟨tip, hitems⟩ := Program.itemsMirror_of_ofModules hbuilt hquiet
    exact ⟨p, rfl, hitems.outlines.2, hitems.outlines.1, tip, hitems⟩

/-- Nothing is reported for the two modules, and both of their functions are there with all statements. -/
theorem ofModules_outline_sample :
    (∀ d ∈ (Program.ofModules Sample.shadowed 5).2, d.isFatal = false) ∧
    ∃ p, (Program.ofModules Sample.shadowed 5).1 = some p ∧
      p.functions.map Program.Function.outline =
        [⟨Sample.spot 3, true, Sample.ident "next", [Sample.ident "n"], [.ret (Sample.spot 5)]⟩,
          ⟨Sample.spot 6, false, Sample.ident "logic",
            [Sample.ident "txn", Sample.ident "gtxn", Sample.ident "args"],
            [.decl (Sample.spot 8) false [⟨"x", Sample.spot 9⟩],
              .ifElse (Sample.spot 10)
                [.decl (Sample.spot 12) false [⟨"x", Sample.spot 13⟩], .ret (Sample.spot 14)]
                [.assign (Sample.spot 16) [.var (Sample.spot 17) "x"]],
              .ret (Sample.spot 18)]⟩] ∧
      p.globals.map Program.Stmt.outline =
        [.decl (Sample.spot 0) true [Sample.ident "step"],
          .decl (Sample.spot 1) false [⟨"x", Sample.spot 2⟩]] := by
  have hquiet : ∀ d ∈ (Program.ofModules Sample.shadowed 5).2, d.isFatal = false := by
    rw [List.isEmpty_iff.mp Sample.isEmpty_shadowed]
    exact List.forall_mem_nil _
  obtain ⟨p, hp, hfunctions, hglobals, _⟩ := ofModules_outline Sample.shadowed 5 hquiet
  exact ⟨hquiet, p, hp, hfunctions, hglobals⟩

end Teal
