/-!
Quoted text in configuration files.

Inside quotes a quote and a backslash are written with a backslash before them. `unescape` takes
the backslash off any character but a line feed. `literal?` reads a quoted literal at the start of
a text and gives what stands between the quotes, still escaped.
-/
namespace Kconfig.Text

/-- A backslash before each quote and each backslash. -/
def escape : List Char → List Char
  | [] => []
  | c :: s => if c = '"' ∨ c = '\\' then '\\' :: c :: escape s else c :: escape s

/-- The text without the backslash of each escaped character. -/
def unescape : List Char → List Char
  | [] => []
  | '\\' :: c :: s => if c = '\n' then '\\' :: c :: unescape s else c :: unescape s
  | c :: s => c :: unescape s

/-- The body of a literal whose opening quote is read: up to the first quote without a backslash. -/
def literalBody? : List Char → Option (List Char)
  | [] => none
  | '"' :: _ => some []
  | '\\' :: c :: s => if c = '\n' then none else (literalBody? s).map ('\\' :: c :: ·)
  | c :: s => if c = '\\' then none else (literalBody? s).map (c :: ·)

/-- The body of the literal that a text starts with. -/
def literal? : List Char → Option (List Char)
  | '"' :: s => literalBody? s
  | _ => none

/-- `escape` on strings. -/
def escaped (s : String) : String := String.ofList (escape s.toList)

/-- `unescape` on strings. -/
def unescaped (s : String) : String := String.ofList (unescape s.toList)

theorem unescape_escape (s : List Char) : unescape (escape s) = s := by
  induction s with
  | nil => simp [escape, unescape]
  | cons c s ih =>
    by_cases h : c = '"' ∨ c = '\\'
    · rcases h with rfl | rfl <;> simp [escape, unescape, ih]
    · rw [escape, if_neg h, unescape, ih]
      intro d t hc
      exact absurd (Or.inr hc) h

end Kconfig.Text
