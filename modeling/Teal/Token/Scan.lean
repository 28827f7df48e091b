import Teal.Diagnostic
import Teal.Excerpt
import Teal.Literal
import Teal.Token

/-!
Cutting a source text into tokens.

The text is taken apart into pieces: a blank, a comment, a lexeme, or a character that starts none.
A piece is described by how many characters it takes beyond its first, what lexeme it yields and what
is wrong with it. Scanning goes on after a fault, so one run reports all of them.
-/

namespace Teal

namespace Scan

inductive Fault where
  | unterminatedComment
  | unterminatedString
  | literal (fault : Literal.Fault)
  | integerTooLarge (text : List Char)
  | integerInvalid (text : List Char)
  | unexpected (c : Char)
deriving DecidableEq, Inhabited

/-- Upper case hexadecimal with at least four digits, as code points are written. -/
def codePointText (n : Nat) : String :=
  let digits := (Text.hexDigits n).map Char.toUpper
  String.ofList (List.replicate (4 - digits.length) '0' ++ digits)

def Fault.message : Fault → String
  | .unterminatedComment => "unterminated block comment"
  | .unterminatedString => "unterminated string literal"
  | .literal fault => fault.message
  | .integerTooLarge text => "integer literal '" ++ String.ofList text ++ "' is too large"
  | .integerInvalid text => "invalid integer literal '" ++ String.ofList text ++ "'"
  | .unexpected c =>
    "unexpected character '" ++ String.singleton c ++ "' (U+" ++ codePointText c.toNat ++ ")"

def Fault.help? : Fault → Option String
  | .unterminatedString => some "close the string with '\"' on the same line"
  | .integerTooLarge _ | .integerInvalid _ =>
    some "integers are unsigned 64-bit, maximum 18446744073709551615"
  | _ => none

def Fault.diagnostic (fault : Fault) (span : Span) : Diagnostic :=
  { Diagnostic.syntactic fault.message span with help := fault.help? }

structure Piece where
  /-- Characters it takes after its first one. -/
  more : Nat
  lexeme : Option Lexeme
  fault : Option Fault
deriving Inhabited

def isSpace (c : Char) : Bool :=
  c == ' ' || c == '\t' || c == '\n' || c == '\x0c' || c == '\r'

def isIdentStart (c : Char) : Bool := c.isAlpha || c == '_'

def isIdentRest (c : Char) : Bool := c.isAlphanum || c == '_'

/-- Length of a block comment after its opening, if it is closed. -/
def commentLength? : List Char → Option Nat
  | [] => none
  | '*' :: '/' :: _ => some 2
  | _ :: cs => (commentLength? cs).map (· + 1)

/-- Length of a string body, which ends before a quote or a line end; a backslash takes the character
after it along. -/
def bodyLength : List Char → Nat
  | [] => 0
  | '"' :: _ => 0
  | '\n' :: _ => 0
  | ['\\'] => 1
  | '\\' :: _ :: cs => bodyLength cs + 2
  | _ :: cs => bodyLength cs + 1

/-- A string literal whose opening quote has been read. `before` counts the characters between the
first one of the token and the body. Without a closing quote a plain literal yields no lexeme. -/
def stringPiece (encoding : Literal.Encoding) (before : Nat) (cs : List Char) : Piece :=
  let n := bodyLength cs
  if (cs.drop n).head? = some '"' then
    match encoding.decode (cs.take n) with
    | .ok bytes => ⟨before + n + 1, some (.bytes bytes), none⟩
    | .error f => ⟨before + n + 1, some (.bytes []), some (.literal f)⟩
  else
    let lexeme := if encoding = .plain then none else some (.bytes [])
    ⟨before + n, lexeme, some .unterminatedString⟩

/-- A word: a keyword, a name, or the prefix of an encoded string. -/
def wordPiece (c : Char) (cs : List Char) : Piece :=
  let tail := cs.takeWhile isIdentRest
  let text := String.ofList (c :: tail)
  let after := cs.drop tail.length
  match Literal.Encoding.ofPrefix? text, after with
  | some encoding, '"' :: body => stringPiece encoding (tail.length + 1) body
  | _, _ =>
    let lexeme := match Keyword.ofText? text with
      | some k => .keyword k
      | none => .ident text
    ⟨tail.length, some lexeme, none⟩

/-- An integer: all letters and digits from here on belong to it. -/
def numberPiece (c : Char) (cs : List Char) : Piece :=
  let (base, lead, digits) := match c, cs with
    | '0', 'x' :: rest => (16, [c, 'x'], rest.takeWhile Char.isAlphanum)
    | '0', 'X' :: rest => (16, [c, 'X'], rest.takeWhile Char.isAlphanum)
    | _, _ => (10, [], c :: cs.takeWhile Char.isAlphanum)
  let text := lead ++ digits
  match Integer.ofDigits base digits with
  | .ok n => ⟨text.length - 1, some (.integer n), none⟩
  | .error .tooLarge => ⟨text.length - 1, some (.integer 0), some (.integerTooLarge text)⟩
  | .error .invalid => ⟨text.length - 1, some (.integer 0), some (.integerInvalid text)⟩

/-- The lexeme of one or two punctuation characters, and how many follow the first. -/
def symbol? (c : Char) (next : Option Char) : Option (Nat × Lexeme) :=
  match c with
  | '(' => some (0, .mark .lparen)
  | ')' => some (0, .mark .rparen)
  | '\x7b' => some (0, .mark .lbrace)
  | '\x7d' => some (0, .mark .rbrace)
  | '[' => some (0, .mark .lbracket)
  | ']' => some (0, .mark .rbracket)
  | ',' => some (0, .mark .comma)
  | ':' => some (0, .mark .colon)
  | ';' => some (0, .mark .semicolon)
  | '.' => some (0, .mark .dot)
  | '+' => some (0, .binary .add)
  | '-' => some (0, .binary .sub)
  | '*' => some (0, .binary .mul)
  | '/' => some (0, .binary .div)
  | '%' => some (0, .binary .mod)
  | '^' => some (0, .binary .bitXor)
  | '~' => some (0, .unary .bitNot)
  | '=' => if next = some '=' then some (1, .binary .eq) else some (0, .mark .assign)
  | '!' => if next = some '=' then some (1, .binary .ne) else some (0, .unary .not)
  | '<' => if next = some '=' then some (1, .binary .le) else some (0, .binary .lt)
  | '>' => if next = some '=' then some (1, .binary .ge) else some (0, .binary .gt)
  | '&' => if next = some '&' then some (1, .binary .and) else some (0, .binary .bitAnd)
  | '|' => if next = some '|' then some (1, .binary .or) else some (0, .binary .bitOr)
  | _ => none

/-- The piece that starts with the character `c` and may go on into `cs`. -/
def piece (c : Char) (cs : List Char) : Piece :=
  if isSpace c then ⟨0, none, none⟩
  else if c = '/' ∧ cs.head? = some '/' then
    ⟨(cs.takeWhile (· != '\n')).length, none, none⟩
  else if c = '/' ∧ cs.head? = some '*' then
    match commentLength? (cs.drop 1) with
    | some n => ⟨n + 1, none, none⟩
    | none => ⟨cs.length, none, some .unterminatedComment⟩
  else if isIdentStart c then wordPiece c cs
  else if c.isDigit then numberPiece c cs
  else if c = '"' then stringPiece .plain 0 cs
  else
    match symbol? c cs.head? with
    | some (more, lexeme) => ⟨more, some lexeme, none⟩
    | none => ⟨0, none, some (.unexpected c)⟩

end Scan

structure Scanned where
  tokens : List Token
  /-- The empty place after the text. -/
  finish : Span
  diagnostics : List Diagnostic

namespace Scan

/-- Scan the characters that start at the byte `offset` of a file. -/
def run (file : FileId) (offset : Nat) : List Char → Scanned
  | [] => ⟨[], .between file offset offset, []⟩
  | c :: cs =>
    let p := piece c cs
    let stop := offset + Text.byteSize (c :: cs.take p.more)
    let span := Span.between file offset stop
    let rest := run file stop (cs.drop p.more)
    { rest with
      tokens := (p.lexeme.map (⟨·, span⟩)).toList ++ rest.tokens
      diagnostics := (p.fault.map (·.diagnostic span)).toList ++ rest.diagnostics }
termination_by cs => cs.length
decreasing_by simp only [List.length_drop, List.length_cons]; omega

end Scan

def scan (file : FileId) (text : String) : Scanned := Scan.run file 0 text.toList

end Teal
