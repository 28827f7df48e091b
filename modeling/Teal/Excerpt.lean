import Teal.Span

/-!
Cutting the part of a source line that a diagnostic points at.

Everything here works on the list of characters of the source. Byte offsets are UTF-8 sizes, and an
offset inside a character is moved to the character's start when it opens a range and to its end when
it closes one.
-/

namespace Teal

namespace Text

def byteSize : List Char → Nat
  | [] => 0
  | c :: cs => c.utf8Size + byteSize cs

/-- The longest start of a text that takes at most `n` bytes, and what follows it. -/
def splitWithin : (n : Nat) → List Char → List Char × List Char
  | _, [] => ([], [])
  | n, c :: cs =>
    if c.utf8Size ≤ n then
      let (before, after) := splitWithin (n - c.utf8Size) cs
      (c :: before, after)
    else
      ([], c :: cs)

/-- The shortest start of a text that takes at least `n` bytes, or all of it. -/
def takeReaching : (n : Nat) → List Char → List Char
  | _, [] => []
  | n, c :: cs => if n = 0 then [] else c :: takeReaching (n - c.utf8Size) cs

end Text

/-- A positioned slice of a source line. -/
structure Excerpt where
  /-- Line number, counted from 1. -/
  line : Nat
  /-- Column in characters, counted from 1. -/
  column : Nat
  text : String
  /-- Carets under the place, aligned with `text`. -/
  marker : String
deriving DecidableEq, Inhabited

namespace Excerpt

/-- Bytes shown on each side of the place; a character cut by the limit is shown whole. -/
def window : Nat := 20

/-- The excerpt of `source` at `span`, which may be reversed or reach beyond the text. -/
def locate (source : String) (span : Span) : Excerpt :=
  let (before, after) := Text.splitWithin span.start source.toList
  let lineHead := (before.reverse.takeWhile (· != '\n')).reverse
  let token := (Text.takeReaching (span.stop - Text.byteSize before) after).takeWhile (· != '\n')
  let lineTail := (after.drop token.length).takeWhile (· != '\n')
  let shownHead := (Text.takeReaching window lineHead.reverse).reverse
  let shownTail := Text.takeReaching window lineTail
  { line := before.count '\n' + 1
    column := lineHead.length + 1
    text := String.ofList (shownHead ++ token ++ shownTail)
    marker := String.ofList
      (List.replicate shownHead.length ' ' ++ List.replicate (max token.length 1) '^') }

end Excerpt

end Teal
