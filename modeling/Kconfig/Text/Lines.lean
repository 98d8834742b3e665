/-!
Cutting a text into lines, and tab stops.

Files have three line ends (`\n`, `\r\n`, `\r`), which all read as `\n`. Text that is cut for
display knows more: `splitLines` also cuts at vertical tab, form feed, the information separators,
next line, and the Unicode line and paragraph separators. `splitKeep` keeps each line's `\n`, so
that joining the lines gives back the text.
-/
namespace Kconfig.Text

/-- Every line end read as a line feed. -/
def unifyLineEnds : List Char → List Char
  | [] => []
  | '\r' :: '\n' :: s => '\n' :: unifyLineEnds s
  | '\r' :: s => '\n' :: unifyLineEnds s
  | c :: s => c :: unifyLineEnds s

/-- The lines of a text, each with the line feed that ends it; only the last may have none. -/
def splitKeep : List Char → List (List Char)
  | [] => []
  | c :: s =>
    if c = '\n' then [c] :: splitKeep s
    else match splitKeep s with
      | [] => [[c]]
      | line :: more => (c :: line) :: more

/-- Whether a character ends a line of displayed text. -/
def endsLine (c : Char) : Bool :=
  let n := c.toNat
  (10 ≤ n && n ≤ 13) || (28 ≤ n && n ≤ 30) || n == 0x85 || n == 0x2028 || n == 0x2029

/-- `splitLines` with the characters of the current line, last first. -/
def splitLinesFrom (line : List Char) : List Char → List (List Char)
  | [] => if line.isEmpty then [] else [line.reverse]
  | '\r' :: '\n' :: s => line.reverse :: splitLinesFrom [] s
  | c :: s =>
    if endsLine c then line.reverse :: splitLinesFrom [] s else splitLinesFrom (c :: line) s

/-- The lines of a displayed text, without their ends; a last line end opens no further line. -/
def splitLines (s : List Char) : List (List Char) := splitLinesFrom [] s

/-- `splitLines` on strings. -/
def linesOf (s : String) : List String := (splitLines s.toList).map String.ofList

/-- Spaces up to the next tab stop for every tab; `column` counts from the last line end. -/
def expandTabsFrom (column : Nat) : List Char → List Char
  | [] => []
  | c :: s =>
    if c = '\t' then
      let width := 8 - column % 8
      List.replicate width ' ' ++ expandTabsFrom (column + width) s
    else if c = '\n' || c = '\r' then c :: expandTabsFrom 0 s
    else c :: expandTabsFrom (column + 1) s

/-- Tab stops every eight columns. -/
def expandTabs (s : List Char) : List Char := expandTabsFrom 0 s

end Kconfig.Text
