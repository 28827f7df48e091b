import Teal.Operator
import Teal.Span

/-!
Lexemes of the language and tokens, which are lexemes with their place.
-/

namespace Teal

inductive Keyword where
  | importKw
  | letKw
  | constKw
  | functionKw
  | inlineKw
  | ifKw
  | elseKw
  | forKw
  | breakKw
  | returnKw
  | errorKw
deriving DecidableEq, Inhabited

namespace Keyword

def text : Keyword → String
  | .importKw => "import"
  | .letKw => "let"
  | .constKw => "const"
  | .functionKw => "function"
  | .inlineKw => "inline"
  | .ifKw => "if"
  | .elseKw => "else"
  | .forKw => "for"
  | .breakKw => "break"
  | .returnKw => "return"
  | .errorKw => "error"

def all : List Keyword :=
  [.importKw, .letKw, .constKw, .functionKw, .inlineKw, .ifKw, .elseKw, .forKw, .breakKw, .returnKw,
    .errorKw]

def ofText? (text : String) : Option Keyword := all.find? (·.text == text)

end Keyword

/-- Punctuation that is no operator. -/
inductive Mark where
  | lparen
  | rparen
  | lbrace
  | rbrace
  | lbracket
  | rbracket
  | comma
  | colon
  | semicolon
  | dot
  | assign
deriving DecidableEq, Inhabited

def Mark.text : Mark → String
  | .lparen => "("
  | .rparen => ")"
  | .lbrace => "\x7b"
  | .rbrace => "\x7d"
  | .lbracket => "["
  | .rbracket => "]"
  | .comma => ","
  | .colon => ":"
  | .semicolon => ";"
  | .dot => "."
  | .assign => "="

/-- The smallest meaningful pieces of a source. -/
inductive Lexeme where
  | keyword (k : Keyword)
  | mark (m : Mark)
  | binary (op : BinOp)
  | unary (op : UnOp)
  | integer (n : UInt64)
  | bytes (bs : List UInt8)
  | ident (name : String)
deriving DecidableEq, Inhabited

def Lexeme.description : Lexeme → String
  | .keyword k => "'" ++ k.text ++ "'"
  | .mark m => "'" ++ m.text ++ "'"
  | .binary op => "'" ++ op.text ++ "'"
  | .unary op => "'" ++ op.text ++ "'"
  | .integer _ => "integer literal"
  | .bytes _ => "string literal"
  | .ident _ => "identifier"

structure Token where
  lexeme : Lexeme
  span : Span
deriving DecidableEq, Inhabited

end Teal
