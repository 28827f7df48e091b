import Teal.Span

/-!
What the compiler has to say about a source: a message at a place, with notes and a hint. Syntax and
semantic diagnostics are errors; an ambiguity is only remarked upon and never stops a compilation.
-/

namespace Teal

inductive Diagnostic.Kind where
  /-- Malformed text. -/
  | syntactic
  /-- Well-formed text without a meaning: undefined names, faults of type. -/
  | semantic
  /-- Text whose reading may surprise. -/
  | ambiguity
deriving DecidableEq, Inhabited

inductive Diagnostic.Severity where
  | error
  | warning
deriving DecidableEq, Inhabited

structure Diagnostic where
  kind : Diagnostic.Kind
  severity : Diagnostic.Severity
  message : String
  span : Span
  notes : List String
  help : Option String
deriving DecidableEq, Inhabited

namespace Diagnostic

def Kind.name : Kind → String
  | .syntactic => "syntax"
  | .semantic => "semantic"
  | .ambiguity => "ambiguity"

def Kind.label : Kind → String
  | .syntactic => "syntax error"
  | .semantic => "semantic error"
  | .ambiguity => "ambiguity"

def Severity.name : Severity → String
  | .error => "error"
  | .warning => "warning"

def syntactic (message : String) (span : Span) : Diagnostic :=
  ⟨.syntactic, .error, message, span, [], none⟩

def semantic (message : String) (span : Span) : Diagnostic :=
  ⟨.semantic, .error, message, span, [], none⟩

def ambiguity (message : String) (span : Span) : Diagnostic :=
  ⟨.ambiguity, .warning, message, span, [], none⟩

def withNote (d : Diagnostic) (note : String) : Diagnostic :=
  { d with notes := d.notes ++ [note] }

def withHelp (d : Diagnostic) (help : String) : Diagnostic :=
  { d with help := some help }

def isFatal (d : Diagnostic) : Bool :=
  d.severity == .error && d.kind != .ambiguity

end Diagnostic

end Teal
