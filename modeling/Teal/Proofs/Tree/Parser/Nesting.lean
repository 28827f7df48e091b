import Teal.Proofs.Token.Cuts
import Teal.Proofs.Tree.Parser.Accepted

/-! How deep blocks stand in one another in a text that is accepted. Blocks with braces stand no deeper than
nesting may go, and a text where they stand deeper is refused for it, which is said by comparison with a
parser that has more room. The blocks that an `else if` is kept as are not bounded at all: texts of two
families, one of blocks in blocks and one of `else if` clauses, are followed through scanner and parser for
every size. -/

namespace Teal.Tree

open List Scan
open Teal.Parser (Fault fileWithin maxNesting)

/-- What comes of a run of the parser. -/
def Parsed.ofRun (run : Module × Parser.State) : Except (List Diagnostic) Parsed :=
  if run.2.diagnostics.any (·.isFatal) then .error run.2.diagnostics else .ok ⟨run.1, run.2.diagnostics⟩

/-- Scan and parse a text with room for so many levels. -/
def Parsed.ofTextWithin (room : Nat) (file : FileId) (text : String) : Except (List Diagnostic) Parsed :=
  if (scan file text).diagnostics.any (·.isFatal) then
    .error (scan file text).diagnostics
  else
    ofRun ((fileWithin room).run (.start (scan file text).tokens (scan file text).finish))

theorem Parsed.ofText_eq_ofTextWithin (file : FileId) (text : String) :
    ofText file text = ofTextWithin maxNesting file text := rfl

/-! ### One text with less and with more room -/

/-- A text that is accepted with some room has no blocks with braces that go deeper, and with less room it
is refused for its depth or read the same way. -/
theorem Parsed.ofTextWithin_cases (room : Nat) {room' : Nat} {file : FileId} {text : String} {parsed : Parsed}
    (h : ofTextWithin room' file text = .ok parsed) : parsed.module.nesting 0 ≤ room' ∧
      ((∃ ds span, ofTextWithin room file text = .error ds ∧ Fault.tooDeep.toDiagnostic span ∈ ds) ∨
        ofTextWithin room file text = .ok parsed) := by
  unfold ofTextWithin at h ⊢
  split at h
  · cases h
  next hscanned =>
  simp only [if_neg hscanned]
  unfold ofRun at h
  split at h
  · cases h
  next hquiet =>
  cases h
  rw [Bool.not_eq_true, any_eq_false] at hquiet
  obtain ⟨⟨span, hdeep⟩ | hsame, hread⟩ := Parser.fileWithin_read room room' (countP_eq_zero.mpr hquiet)
  · exact ⟨hread.nesting, .inl ⟨_, span, if_pos (any_eq_true.mpr ⟨_, hdeep, rfl⟩), hdeep⟩⟩
  · rw [hsame]
    exact ⟨hread.nesting, .inr (if_neg (by simpa using hquiet))⟩

/-- Lexemes that are read as a file without places are read as a file of this shape where they are found. -/
theorem Parsed.exists_ofTextWithin {room : Nat} {cs : List Char} {ls : List Lexeme} {m : Module}
    (hcuts : Scan.Cuts cs ls) (hreads : Parser.Reads (fileWithin room) ls m (· = none)) (file : FileId) :
    ∃ parsed, ofTextWithin room file (String.ofList cs) = .ok parsed ∧ parsed.module.erase = m.erase := by
  obtain ⟨hclean, hlexemes⟩ := scan_of_cuts hcuts trivial file
  have hstep : Parser.InStep anywhere (fileWithin room) (fileWithin room)
      (Parser.ModuleMoved anywhere anywhere) :=
    Parser.fileWithin_inStep (fun _ _ _ _ _ _ => trivial) (fun _ _ _ => trivial) room
  obtain ⟨hmodule, herrors, -⟩ :=
    hreads.run_start rfl hstep hlexemes (scan file (String.ofList cs)).finish
  have hquiet := any_eq_false.mpr (countP_eq_zero.mp herrors)
  simp only [ofTextWithin, ofRun, hclean, any_nil, hquiet, Bool.false_eq_true, if_false]
  exact ⟨_, rfl, hmodule.erase_eq⟩

/-! ### Two families of texts -/

/-- Some statements as all of a file. -/
def Sample.only (stmts : List Stmt) : Module :=
  ⟨[], [.function .nowhere ⟨false, ⟨"f", .nowhere⟩, [], ⟨.nowhere, stmts⟩⟩]⟩

def Sample.onlyText (cs : List Char) : List Char := "function f()\x7b".toList ++ (cs ++ "\x7d".toList)

/-- The statement `if 1`, so many times in itself. -/
def Sample.tower : Nat → List Stmt
  | 0 => []
  | n + 1 => [.ifThen .nowhere (.int .nowhere 1) .nowhere (Sample.tower n)]

def Sample.towerText : Nat → List Char
  | 0 => []
  | n + 1 => "if 1\x7b".toList ++ (Sample.towerText n ++ "\x7d".toList)

def Sample.rung : Parser.Clause := ⟨.nowhere, .int .nowhere 1, ⟨.nowhere, []⟩⟩

def Sample.rungText : List Char := "if 1\x7b".toList ++ "\x7d".toList

/-- The statement `if 1` with so many `else if` clauses. -/
def Sample.ladder (n : Nat) : Stmt := Parser.joinClauses .nowhere none Sample.rung (.replicate n Sample.rung)

def Sample.ladderText (n : Nat) : List Char :=
  Sample.rungText ++ (List.replicate n ()).flatMap fun _ => "else ".toList ++ Sample.rungText

section Families

open Teal.Parser Teal.Tree.Sample

theorem nesting_tower (bare n : Nat) : stmtsNesting bare (tower n) = n := by
  induction n with
  | zero => rfl
  | succ n ih => rw [tower, stmtsNesting, Stmt.nesting, ih, stmtsNesting, Nat.max_zero]

variable (n : Nat)

theorem depth_tower : stmtsDepth (tower n) = n := by
  induction n with
  | zero => rfl
  | succ n ih =>
    rw [tower, stmtsDepth, Stmt.depth, ih, stmtsDepth, Nat.max_zero]
    exact Nat.max_eq_right (Nat.succ_le_succ (Nat.zero_le n))

theorem wellFormed_tower : stmtsWellFormed (tower n) = true := by
  induction n with
  | zero => rfl
  | succ n ih => rw [tower, stmtsWellFormed, Stmt.wellFormed, ih]; rfl

theorem erase_tower : eraseStmts (tower n) = tower n := by
  induction n with
  | zero => rfl
  | succ n ih => rw [tower, eraseStmts, Stmt.erase, ih]; rfl

/-- Each `else if` counts as a block here, as the tree has one for it. -/
theorem nesting_ladder : (ladder n).nesting 1 = n + 1 := by
  have hweight (span : Span) (stmts : List Stmt) : weight 1 span stmts = 1 := by
    unfold weight
    split <;> rfl
  induction n with
  | zero => rfl
  | succ n ih =>
    have hstep : (ladder (n + 1)).nesting 1 =
        max 1 (max ((ladder n).nesting 1) 0 +
          weight 1 (ladder n).span [ladder n]) := rfl
    rw [hstep, hweight, ih, Nat.max_zero]
    exact Nat.max_eq_right (Nat.succ_le_succ (Nat.zero_le _))

theorem erase_ladder : (ladder n).erase = ladder n := by
  induction n with
  | zero => rfl
  | succ n ih =>
    have hspan : (ladder n).span = .nowhere := by rw [← ih, Stmt.span_erase]
    have hstep : ladder (n + 1) =
        .ifElse .nowhere (.int .nowhere 1) .nowhere [] (ladder n).span [ladder n] := rfl
    rw [hstep, hspan, Stmt.erase, eraseStmts, eraseStmts, eraseStmts, ih]
    rfl

/-! ### How they are scanned -/

theorem cuts_close : Scan.Cuts "\x7d".toList [.mark .rbrace] := by
  change Scan.Cuts ['\x7d'] _
  exact cuts_cons 0 (some (.mark .rbrace)) (fun _ _ => rfl) (by decide) cuts_nil

theorem cuts_test : Scan.Cuts "if 1\x7b".toList [.keyword .ifKw, .integer 1, .mark .lbrace] := by
  change Scan.Cuts ['i', 'f', ' ', '1', '\x7b'] _
  refine cuts_cons 1 (some (.keyword .ifKw)) (fun _ _ => rfl) (by decide) ?_
  refine cuts_cons 0 none (fun _ _ => rfl) (by decide) ?_
  refine cuts_cons 0 (some (.integer 1)) (fun _ _ => rfl) (by decide) ?_
  exact cuts_cons 0 (some (.mark .lbrace)) (fun _ _ => rfl) (by decide) cuts_nil

theorem cuts_else : Scan.Cuts "else ".toList [.keyword .elseKw] := by
  change Scan.Cuts ['e', 'l', 's', 'e', ' '] _
  refine cuts_cons 3 (some (.keyword .elseKw)) (fun _ _ => rfl) (by decide) ?_
  exact cuts_cons 0 none (fun _ _ => rfl) (by decide) cuts_nil

theorem cuts_head : Scan.Cuts "function f()\x7b".toList
    [.keyword .functionKw, .ident "f", .mark .lparen, .mark .rparen, .mark .lbrace] := by
  change Scan.Cuts ['f', 'u', 'n', 'c', 't', 'i', 'o', 'n', ' ', 'f', '(', ')', '\x7b'] _
  refine cuts_cons 7 (some (.keyword .functionKw)) (fun _ _ => rfl) (by decide) ?_
  refine cuts_cons 0 none (fun _ _ => rfl) (by decide) ?_
  refine cuts_cons 0 (some (.ident "f")) (fun _ _ => rfl) (by decide) ?_
  refine cuts_cons 0 (some (.mark .lparen)) (fun _ _ => rfl) (by decide) ?_
  refine cuts_cons 0 (some (.mark .rparen)) (fun _ _ => rfl) (by decide) ?_
  exact cuts_cons 0 (some (.mark .lbrace)) (fun _ _ => rfl) (by decide) cuts_nil

/-- The head of the function that stands around statements. -/
def headLexemes : List Lexeme := [.keyword .functionKw, .ident "f", .mark .lparen, .mark .rparen]

variable {ls : List Lexeme} {room : Nat}

theorem cuts_only {cs : List Char} (h : Scan.Cuts cs ls) :
    Scan.Cuts (onlyText cs) (headLexemes ++ braced ls) := by
  have hall := cuts_append cuts_head (cuts_append h cuts_close)
  exact hall

theorem cuts_tower : Scan.Cuts (towerText n) (stmtsLexemes (tower n)) := by
  induction n with
  | zero => exact cuts_nil
  | succ n ih =>
    have hall := cuts_append cuts_test (cuts_append ih cuts_close)
    rw [tower, stmtsLexemes, stmtsLexemes, append_nil]
    exact hall

def rungLexemes : List Lexeme := .keyword .ifKw :: (.integer 1 :: braced [])

theorem cuts_rung : Scan.Cuts rungText rungLexemes := cuts_append cuts_test cuts_close

def ladderLexemes (n : Nat) : List Lexeme :=
  rungLexemes ++ (List.replicate n ()).flatMap fun _ => .keyword .elseKw :: rungLexemes

theorem cuts_ladder : Scan.Cuts (ladderText n) (ladderLexemes n) := by
  refine cuts_append cuts_rung ?_
  induction n with
  | zero => exact cuts_nil
  | succ n ih => exact cuts_append (cuts_append cuts_else cuts_rung) ih

/-! ### How they are parsed -/

theorem only_reads {stmts : List Stmt} (h : Reads (block room) (braced ls) ⟨.nowhere, stmts⟩ anything) :
    Reads (fileWithin room) (headLexemes ++ braced ls) (only stmts) (· = none) := by
  have hitem : ∀ _ ∈ [()], Reads (item room) (headLexemes ++ braced ls)
      (some (.function .nowhere ⟨false, ⟨"f", .nowhere⟩, [], ⟨.nowhere, stmts⟩⟩)) anything :=
    fun _ _ => reads_item (reads_function false ⟨"f", .nowhere⟩ [] h) (.inl rfl)
  have hitems := reads_items hitem fun _ _ => ⟨_, rfl⟩
  rw [flatMap_singleton] at hitems
  have himports : Reads imports [] [] (· ≠ some (.keyword .importKw)) := @imports_reads [] nofun
  rw [← nil_append (headLexemes ++ braced ls)]
  refine reads_bind himports ?_ fun _ _ => nofun
  exact reads_nil hitems (reads_pure _) fun _ => id

theorem tower_reads : Reads (block (n + 1)) (braced (stmtsLexemes (tower n)))
    ⟨.nowhere, tower n⟩ anything := by
  have hblock := block_reads (n + 1) (tower n) (wellFormed_tower n)
    (Nat.lt_succ_of_le (Nat.le_of_eq (depth_tower n)))
  rwa [erase_tower] at hblock

theorem rung_reads (hroom : 0 < room) : Reads (clause room (block room)) rungLexemes rung anything :=
  clause_reads (expr_reads room (.int .nowhere 1) rfl hroom) (block_reads room [] rfl hroom)

theorem conditional_reads (hroom : 0 < room) (n : Nat) :
    Reads (conditional room (block room)) (ladderLexemes n) (ladder n) (· ≠ some (.keyword .elseKw)) := by
  refine reads_bind (rung_reads hroom) ?_ fun _ _ => trivial
  -- The clauses behind the first one are read in a loop, so none of them takes a level.
  refine reads_nil (a := ([] ++ (List.replicate n ()).map fun _ => rung, none))
    (iterate_reads (fun cs => (cs, none)) anything (fun acc _ _ => ?_) (fun _ _ => ⟨_, rfl, trivial⟩)
      (fun acc => ?_) (fun _ _ => trivial) []) ?_ fun _ => id
  · refine reads_cons (eat_reads _) (reads_sees true (fun _ _ => rfl) ?_)
    exact reads_nil (rung_reads hroom) (reads_pure _) fun _ => id
  · exact reads_eat_other (fun _ hx => hx) (reads_pure _)
  · rw [map_replicate]
    exact reads_behind (reads_pure _)

theorem ladder_reads (hroom : 0 < room) (n : Nat) :
    Reads (block (room + 1)) (braced (ladderLexemes n)) ⟨.nowhere, [ladder n]⟩ anything := by
  have hstmt : Reads (statement room (block room)) (ladderLexemes n) (some (ladder n))
      (· ≠ some (.keyword .elseKw)) :=
    reads_here (reads_peek_head rfl (reads_nil (conditional_reads hroom n) (reads_pure _) fun _ => id))
  have hdelayed : ∀ _ ∈ [()], Reads (delay fun _ => statement room (block room)) (ladderLexemes n)
      (some (ladder n)) (· ≠ some (.keyword .elseKw)) := fun _ _ => hstmt
  have hloop := stmtsStep_reads hdelayed fun _ _ => ⟨_, rfl, rfl⟩
  rw [flatMap_singleton] at hloop
  exact reads_block hloop

/-- Statements without places are found in the text of a file that holds them, as deep as they are. -/
theorem exists_only {bare : Nat} (hbare : bare ≤ 1) {cs : List Char} {stmts : List Stmt}
    (hcuts : Scan.Cuts cs ls) (hreads : Reads (block room) (braced ls) ⟨.nowhere, stmts⟩ anything)
    (herase : eraseStmts stmts = stmts) (file : FileId) : ∃ parsed,
      Parsed.ofTextWithin room file (String.ofList (onlyText cs)) = .ok parsed ∧
        stmtsNesting bare stmts < parsed.module.nesting bare := by
  obtain ⟨parsed, hparsed, hshape⟩ := Parsed.exists_ofTextWithin (cuts_only hcuts) (only_reads hreads) file
  have hitem : (only stmts).erase.items =
      [.function .nowhere ⟨false, ⟨"f", .nowhere⟩, [], ⟨.nowhere, eraseStmts stmts⟩⟩] := by
    rw [eraseStmts_eq_map]
    rfl
  have hall := Module.nesting_le_iff.mp (Module.nesting_erase_le hbare parsed.module)
  rw [hshape, hitem, herase] at hall
  exact ⟨parsed, hparsed, hall _ mem_cons_self⟩

theorem exists_tower (file : FileId) : ∃ parsed,
    Parsed.ofTextWithin (n + 1) file (String.ofList (onlyText (towerText n))) = .ok parsed ∧
      n < parsed.module.nesting 0 := by
  have hfound := exists_only (Nat.zero_le 1) (cuts_tower n) (tower_reads n) (erase_tower n) file
  rwa [nesting_tower] at hfound

/-- With room for two levels, `else if` clauses are accepted however many there are. -/
theorem exists_ladder (hroom : 0 < room) (n : Nat) (file : FileId) : ∃ parsed,
    Parsed.ofTextWithin (room + 1) file (String.ofList (onlyText (ladderText n))) = .ok parsed ∧
      n + 1 < parsed.module.nesting 1 := by
  have hfound := exists_only .refl (cuts_ladder n) (ladder_reads hroom n) (by
    rw [eraseStmts, erase_ladder, eraseStmts]) file
  rwa [stmtsNesting, stmtsNesting, nesting_ladder, Nat.max_zero] at hfound

end Families

/-! ### Texts that are accepted -/

/-- In a text that is accepted, blocks with braces stand no deeper than nesting may go, and so do all
blocks if none is an `else if`. Where blocks with braces would stand deeper, the text is refused for it. -/
theorem Parsed.ofText_nesting (file : FileId) (text : String) :
    (∀ parsed, ofText file text = .ok parsed → parsed.module.nesting 0 ≤ maxNesting ∧
      (parsed.module.isBraced = true → parsed.module.nesting 1 ≤ maxNesting)) ∧
    ∀ room parsed, maxNesting ≤ room → ofTextWithin room file text = .ok parsed →
      maxNesting < parsed.module.nesting 0 →
      ∃ ds span, ofText file text = .error ds ∧ Fault.tooDeep.toDiagnostic span ∈ ds := by
  simp only [ofText_eq_ofTextWithin]
  refine ⟨fun parsed hparsed => ?_, fun room parsed _ hparsed hdeep => ?_⟩
  · have hle := (ofTextWithin_cases maxNesting hparsed).1
    exact ⟨hle, fun hbraced => Module.nesting_le_of_isBraced hbraced hle⟩
  · refine (ofTextWithin_cases maxNesting hparsed).2.resolve_right fun hsame => ?_
    exact absurd (ofTextWithin_cases maxNesting hsame).1 (Nat.not_le_of_lt hdeep)

/-- A block behind `else`, with braces around the only statement in it. -/
def Sample.branched : String := "function f()\x7bif 1\x7b\x7delse\x7bif 1\x7b\x7d\x7d\x7d"

theorem Sample.exists_branched :
    ∃ parsed, Parsed.ofText 0 Sample.branched = .ok parsed ∧ parsed.module.isBraced = true := by
  have hbraced : (Parsed.ofText 0 Sample.branched).toOption.map (·.module.isBraced) = some true := by
    decide +kernel
  cases hparsed : Parsed.ofText 0 Sample.branched with
  | error ds =>
    rw [hparsed] at hbraced
    cases hbraced
  | ok parsed =>
    rw [hparsed] at hbraced
    exact ⟨parsed, rfl, Option.some.inj hbraced⟩

theorem Parsed.ofText_nesting_sample :
    (∃ parsed, ofText 0 Sample.branched = .ok parsed ∧ parsed.module.nesting 1 ≤ maxNesting) ∧
      ∃ ds span, ofText 0 (String.ofList (Sample.onlyText (Sample.towerText maxNesting))) = .error ds ∧
        Fault.tooDeep.toDiagnostic span ∈ ds := by
  obtain ⟨flat, hflat, hbraced⟩ := Sample.exists_branched
  obtain ⟨deep, hdeep, hnesting⟩ := exists_tower maxNesting 0
  refine ⟨⟨flat, hflat, ((ofText_nesting 0 _).1 flat hflat).2 hbraced⟩, ?_⟩
  exact (ofText_nesting 0 _).2 (maxNesting + 1) deep (Nat.le_succ maxNesting) hdeep hnesting

/-- With 255 `else if` clauses a text is accepted, but all its blocks together stand too deep. -/
theorem Parsed.ofText_not_nesting : ∃ parsed,
    ofText 0 (String.ofList (Sample.onlyText (Sample.ladderText 255))) = .ok parsed ∧
      maxNesting < parsed.module.nesting 1 := by
  obtain ⟨parsed, hparsed, hnesting⟩ := exists_ladder (show 0 < 255 by decide) 255 0
  exact ⟨parsed, (ofText_eq_ofTextWithin 0 _).trans hparsed, hnesting⟩

end Teal.Tree
