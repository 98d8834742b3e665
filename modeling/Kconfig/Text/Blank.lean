/-!
White space, and cutting it off the ends of a text.

Texts are lists of characters here. A character is *blank* when it separates words in any script:
the five layout controls, the four information separators, and the Unicode space characters.
`asciiBlank` is the smaller class that line patterns and numbers use. Cutting keeps the order of
what is left, and what is left starts (and ends) with no blank.
-/
namespace Kconfig.Text

/-- Space, tab, line feed, vertical tab, form feed and carriage return. -/
def asciiBlank (c : Char) : Bool := c == ' ' || (9 ≤ c.toNat && c.toNat ≤ 13)

/-- White space of any script. -/
def isBlank (c : Char) : Bool :=
  let n := c.toNat
  asciiBlank c || (28 ≤ n && n ≤ 31) || n == 0x85 || n == 0xA0 || n == 0x1680 ||
    (0x2000 ≤ n && n ≤ 0x200A) || n == 0x2028 || n == 0x2029 || n == 0x202F || n == 0x205F ||
    n == 0x3000

/-- Whether a text has characters and all are blank. -/
def allBlank (s : List Char) : Bool := !s.isEmpty && s.all isBlank

/-- The text without the blanks it starts with. -/
def trimLeft (s : List Char) : List Char := s.dropWhile isBlank

/-- The text without the characters of a class that it ends with. -/
def dropRightWhile (p : Char → Bool) : List Char → List Char
  | [] => []
  | c :: s =>
    match dropRightWhile p s with
    | [] => if p c then [] else [c]
    | kept => c :: kept

/-- The text without the blanks it ends with. -/
def trimRight (s : List Char) : List Char := dropRightWhile isBlank s

/-- The text without the blanks at both ends. -/
def trim (s : List Char) : List Char := trimRight (trimLeft s)

/-- `trim` on strings. -/
def trimmed (s : String) : String := String.ofList (trim s.toList)

theorem isBlank_of_asciiBlank {c : Char} (h : asciiBlank c = true) : isBlank c = true := by
  simp [isBlank, h]

end Kconfig.Text
