import Kconfig.Expr.Basic
/-!
The second notation: parts of lines, and expressions in groups.

A matcher takes something from the start of a text, each part with the blanks before it. Operators
between operands are matched by a library: it makes one list for each level of operators, with the
operands and the signs between them in the order of the text. What it does is a parameter here;
`Grammar.ofLevels` does it from level to level.
-/
namespace Kconfig

/-- Takes something from the start of a text, and gives the text after it. -/
abbrev Matcher (α : Type) := StateT (List Char) Option α

/-- What is taken from a text: a piece of it, or a list of such. -/
inductive Nested where
  | text (s : List Char)
  | group (parts : List Nested)
  deriving Repr, Inhabited

/-- Takes an expression. -/
abbrev Infix := Matcher Nested

namespace Grammar

/-- Space, tab, line feed and carriage return. -/
def isGap (c : Char) : Bool := c == ' ' || c == '\t' || c == '\n' || c == '\r'

def skip (s : List Char) : List Char := s.dropWhile isGap

/-- The text after some characters and the blanks before them. -/
def sign? (sign : String) (s : List Char) : Option (List Char) :=
  let s := skip s
  if sign.toList.isPrefixOf s then some (s.drop sign.length) else none

/-- A character that a keyword must not touch. -/
def isKeywordChar (c : Char) : Bool := c.isAlphanum || c == '_' || c == '$'

/-- The text after a keyword. -/
def keyword? (word : String) (s : List Char) : Option (List Char) := do
  let rest ← sign? word s
  if rest.head?.any isKeywordChar then none else rest

/-- A name: letters, digits and underscores. -/
def name? : Matcher (List Char) := fun s =>
  let s := skip s
  let name := s.takeWhile fun c => c.isAlphanum || c == '_'
  if name.isEmpty then none else some (name, s.drop name.length)

/-- A character of a bare symbol. -/
def isSymbolChar (c : Char) : Bool :=
  c.isAlphanum || c == '_' || c == '.' || c == '$' || c == '/' || c == '-'

/-- The body up to a quote without a backslash before it, and the text after the quote. -/
def body? (quote : Char) : List Char → Option (List Char × List Char)
  | [] => none
  | '\\' :: c :: s =>
    if c = '\n' then none else (body? quote s).map fun (b, rest) => ('\\' :: c :: b, rest)
  | c :: s =>
    if c = quote then some ([], s)
    else if c = '\\' then none
    else (body? quote s).map fun (b, rest) => (c :: b, rest)

/-- A symbol: a text in quotes, which it keeps, or a bare one; the word `if` is none. -/
def symbol? : Matcher (List Char) := fun s =>
  match skip s with
  | [] => none
  | c :: s =>
    if c = '"' || c = '\'' then (body? c s).map fun (b, rest) => (c :: b ++ [c], rest)
    else
      let word := (c :: s).takeWhile isSymbolChar
      if word.isEmpty || word = ['i', 'f'] then none
      else some (word, (c :: s).drop word.length)

/-- The sign of a relation. -/
def relation? : Matcher Relation := fun s =>
  match skip s with
  | '!' :: '=' :: s => some (.unequal, s)
  | '<' :: '=' :: s => some (.lessEqual, s)
  | '>' :: '=' :: s => some (.greaterEqual, s)
  | '=' :: s => some (.equal, s)
  | '<' :: s => some (.less, s)
  | '>' :: s => some (.greater, s)
  | _ => none

/-- The text after `!`, unless it begins the sign of a relation. -/
def negation? (s : List Char) : Option (List Char) :=
  match skip s with
  | '!' :: '=' :: _ => none
  | '!' :: s => some s
  | _ => none

/-! ### Levels of operators -/

/-- Where the operators of an expression stand, the tightest one first. -/
inductive Level where
  | atom | relation | negation | conjunction | disjunction
  deriving DecidableEq, Repr

/-- The level of the operands. -/
def Level.below : Level → Level
  | .disjunction => .conjunction
  | .conjunction => .negation
  | .negation => .relation
  | _ => .atom

/-- The sign between two operands. -/
def Level.sign? (level : Level) : Matcher (List Char) := fun s =>
  match level with
  | .relation => (relation? s).map fun (r, s) => (r.sign.toList, s)
  | .conjunction => (Grammar.sign? "&&" s).map fun s => ("&&".toList, s)
  | .disjunction => (Grammar.sign? "||" s).map fun s => ("||".toList, s)
  | _ => none

/-- The list of some operands and the signs between them; one operand stands for itself. -/
def grouped : List Nested → Nested
  | [part] => part
  | parts => .group parts

mutual

/-- What a text starts with at a level; `fuel` bounds how far it is followed. -/
def groupAt : Nat → Level → Matcher Nested
  | 0, _, _ => none
  | fuel + 1, .atom, s =>
    match symbol? s with
    | some (t, s) => some (.text t, s)
    | none => do
      let s ← sign? "(" s
      let (part, s) ← groupAt fuel .disjunction s
      let s ← sign? ")" s
      pure (part, s)
  | fuel + 1, .negation, s =>
    match negation? s with
    | none => groupAt fuel .relation s
    | some more =>
      match groupAt fuel .negation more with
      | some (part, s) => some (.group [.text ['!'], part], s)
      | none => groupAt fuel .relation s
  | fuel + 1, level, s => (partsAt fuel level s).map fun (parts, s) => (grouped parts, s)

/-- The operands and the signs between them that a text starts with at a level. -/
def partsAt : Nat → Level → Matcher (List Nested)
  | 0, _, _ => none
  | fuel + 1, level, s => do
    let (part, s) ← groupAt fuel level.below s
    match level.sign? s with
    | none => pure ([part], s)
    | some (sign, more) =>
      match partsAt fuel level more with
      | none => pure ([part], s)
      | some (parts, s) => pure (part :: .text sign :: parts, s)

end

/-- A list for each level of operators. -/
def ofLevels : Infix := fun s => groupAt (8 * s.length + 8) .disjunction s

end Grammar
end Kconfig
