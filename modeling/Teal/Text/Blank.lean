/-!
White space of Unicode, and the trimming of text by it.
-/

namespace Teal.Text

/-- Characters with the Unicode property White_Space. -/
def isBlank (c : Char) : Bool :=
  let n := c.toNat
  (0x9 ≤ n && n ≤ 0xD) || n == 0x20 || n == 0x85 || n == 0xA0 || n == 0x1680
    || (0x2000 ≤ n && n ≤ 0x200A) || n == 0x2028 || n == 0x2029 || n == 0x202F || n == 0x205F
    || n == 0x3000

/-- Remove characters with a property from both ends. -/
def trimBy (p : Char → Bool) (cs : List Char) : List Char :=
  ((cs.dropWhile p).reverse.dropWhile p).reverse

def trim (cs : List Char) : List Char := trimBy isBlank cs

def unquote (cs : List Char) : List Char := trimBy (· == '"') cs

/-- Cut at every occurrence of a character. -/
def splitOn (sep : Char) : List Char → List (List Char)
  | [] => [[]]
  | c :: cs =>
    if c == sep then [] :: splitOn sep cs
    else match splitOn sep cs with
      | [] => [[c]]
      | part :: parts => (c :: part) :: parts

/-- Lines of a text. A line end is a line feed with the carriage return before it, if any; text that
ends with a line end has no empty last line. -/
def lines (cs : List Char) : List (List Char) :=
  let parts := splitOn '\n' cs
  let chomp (line : List Char) : List Char :=
    if line.getLast? = some '\r' then line.dropLast else line
  let closed := parts.dropLast.map chomp
  match parts.getLast? with
  | none | some [] => closed
  | some last => closed ++ [last]

end Teal.Text
