import Teal.Diagnostic
import Teal.Excerpt
import Teal.Sources
import Teal.Text.Quoted

/-!
Diagnostics as the user sees them: a plain block of lines with the excerpt underlined, or a report
record that is written as JSON.
-/

namespace Teal

structure Report where
  file : String
  line : Nat
  column : Nat
  kind : Diagnostic.Kind
  severity : Diagnostic.Severity
  message : String
  notes : List String
  help : Option String
  excerpt : String
deriving DecidableEq, Inhabited

namespace Diagnostic

/-- The file a diagnostic is about; an unknown one is shown as an empty file. -/
def sourceFile (d : Diagnostic) (sources : Sources) : SourceFile :=
  (sources.get? d.span.file).getD ⟨"<unknown>", ""⟩

/-- Position and message, the excerpt, its marker, then notes and help. -/
def renderPlain (d : Diagnostic) (sources : Sources) : String :=
  let file := d.sourceFile sources
  let ex := Excerpt.locate file.text d.span
  let head := s!"{file.name}:{ex.line}:{ex.column}: {d.kind.label}: {d.message}"
  let notes := d.notes.map ("  note: " ++ ·)
  let help := d.help.toList.map ("  help: " ++ ·)
  String.intercalate "\n" ([head, ex.text, ex.marker] ++ notes ++ help)

def report (d : Diagnostic) (sources : Sources) : Report :=
  let file := d.sourceFile sources
  let ex := Excerpt.locate file.text d.span
  { file := file.name, line := ex.line, column := ex.column, kind := d.kind
    severity := d.severity, message := d.message, notes := d.notes, help := d.help
    excerpt := ex.text }

end Diagnostic

namespace Report

/-- A JSON array over several lines, each element at the given indent; `[]` if it is empty. -/
def jsonArray (indent : String) (elements : List String) : String :=
  if elements.isEmpty then "[]"
  else
    let body := elements.map (indent ++ "  " ++ ·)
    "[\n" ++ String.intercalate ",\n" body ++ "\n" ++ indent ++ "]"

def toJson (r : Report) : String :=
  let help := match r.help with
    | none => "null"
    | some h => Text.jsonString h
  let fields := [
    ("file", Text.jsonString r.file),
    ("line", toString r.line),
    ("column", toString r.column),
    ("kind", Text.jsonString r.kind.name),
    ("severity", Text.jsonString r.severity.name),
    ("message", Text.jsonString r.message),
    ("notes", jsonArray "    " (r.notes.map Text.jsonString)),
    ("help", help),
    ("excerpt", Text.jsonString r.excerpt)]
  let body := fields.map fun (key, value) => "    " ++ Text.jsonString key ++ ": " ++ value
  "\x7b\n" ++ String.intercalate ",\n" body ++ "\n  \x7d"

def allToJson (diagnostics : List Diagnostic) (sources : Sources) : String :=
  jsonArray "" (diagnostics.map fun d => (d.report sources).toJson)

end Report

end Teal
