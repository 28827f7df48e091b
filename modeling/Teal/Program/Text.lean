import Teal.Program
import Teal.Text.Quoted
import Teal.Text.Utf8

/-!
Expressions as they would be written, for messages.
-/

namespace Teal.Program

def Literal.text : Literal → String
  | .int n => toString n.toNat
  | .bytes bs =>
    match Text.ofUtf8? bs with
    | some cs => String.ofList (Text.quoted cs)
    | none => "0x" ++ Text.hex bs

def callText (name : String) (args : List String) : String :=
  name ++ "(" ++ String.intercalate ", " args ++ ")"

def castName (ty : Ty) : String := if ty = .bytes then "tobyte" else "toint"

mutual

def Expr.text : Expr → String
  | .literal _ value _ => value.text
  | .ident _ name _ => name
  | .unary _ op e => op.text ++ e.text
  | .binary _ op l r => l.text ++ " " ++ op.text ++ " " ++ r.text
  | .group _ e => "(" ++ e.text ++ ")"
  | .call _ _ name _ args => callText name (texts args)
  | .builtin _ b args =>
    let written := callText b.name (texts args)
    if b.immediates.isEmpty then written
    else written ++ " [" ++ String.intercalate " " (b.immediates.map (·.text)) ++ "]"
  | .cond _ _ test yes no =>
    "if " ++ test.text ++ " \x7b" ++ yes.text ++ "\x7d else \x7b" ++ no.text ++ "\x7d"
  | .field _ source f => source.text ++ "." ++ f.name
  | .fieldAt _ source f index => source.text ++ "." ++ f.name ++ "[" ++ index.text ++ "]"
  | .arg _ index => "args[" ++ index.text ++ "]"
  | .cast _ ty e => callText (castName ty) [e.text]

def Index.text : Index → String
  | .const n => toString n.toNat
  | .dynamic e => e.text

def FieldSource.text : FieldSource → String
  | .txn => "txn"
  | .gtxn index => "gtxn[" ++ index.text ++ "]"
  | .global => "global"
  | .itxn => "itxn"

def texts : List Expr → List String
  | [] => []
  | e :: rest => e.text :: texts rest

end

end Teal.Program
