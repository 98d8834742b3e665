import Kconfig.Macro.Expand
import Kconfig.Reading.Grammar
import Kconfig.Reading.Statement
/-!
The second notation: whole lines.

A line is freed from its comment, its macros are expanded, and then it has to match the grammar from
end to end. What a form captures is put to use only later: names become symbols and nested lists
become expressions when the statement is performed. A first word that no form knows starts an
assignment to a macro variable.
-/
namespace Kconfig

/-! ### Expressions -/

/-- The symbol of a captured text: in quotes, or bare. -/
def operand (token : List Char) : Reading SymbolId :=
  match token with
  | [] => throw .noSuchIndex
  | c :: s =>
    if c = '"' || c = '\'' then do
      Reading.constant (String.ofList (← Reading.expandEnv (Text.unescape s.dropLast)))
    else Reading.word (String.ofList token)

/-- The relation of a sign. -/
def Relation.ofSign? (sign : List Char) : Option Relation :=
  [.equal, .unequal, .less, .lessEqual, .greater, .greaterEqual].find? fun r : Relation =>
    r.sign.toList == sign

/-- The relation of two symbols; other expressions cannot be compared. -/
def Expr.compared (r : Relation) : Expr → Expr → Reading Expr
  | .item a, .item b => pure (.compare r a b)
  | _, _ => Reading.problem .malformedExpression

namespace Nested

/-- Whether it is a piece of text. -/
def isText (sign : String) : Nested → Bool
  | .text s => s == sign.toList
  | .group _ => false

/-- The expression of two operands and the sign between them. Operands may go on to the right,
those of a relation may not. -/
def joined (sign : Nested) (isLast : Bool) (left right : Reading Expr) : Reading Expr := do
  if sign.isText "&&" then pure (.and (← left) (← right))
  else if sign.isText "||" then pure (.or (← left) (← right))
  else
    match sign with
    | .group _ => throw .illTyped
    | .text sign =>
      match Relation.ofSign? sign with
      | some r =>
        if isLast then Expr.compared r (← left) (← right)
        else Reading.problem .malformedExpression
      | none => Reading.problem .malformedExpression

mutual

/-- The expression of nested lists. -/
def resolve : Nested → Reading Expr
  | .text s => .symbol <$> operand s
  | .group parts => resolveAll parts

/-- The expression of a list: operands and the signs between them, or one operand after `!`. Chains
are nested to the right. -/
def resolveAll : List Nested → Reading Expr
  | [] => throw .noSuchIndex
  | [part] => part.resolve
  | part :: sign :: more => do
    if part.isText "!" then .not <$> resolveAll (sign :: more)
    else if more.length % 2 = 0 then Reading.problem .malformedExpression
    else joined sign (more.length = 1) part.resolve (resolveAll more)

end
end Nested

namespace Statement

/-! ### Forms -/

/-- A captured text with its environment references replaced. -/
def textPart (s : List Char) : Reading String := String.ofList <$> Reading.expandEnv s

/-- A captured condition; without one it is `y`. -/
def conditionPart : Option Nested → Reading Expr
  | some cond => cond.resolve
  | none => pure .yes

/-- A captured prompt. -/
def promptOf (captured : List Char × Option Nested) : PromptPart :=
  ⟨textPart captured.1, conditionPart captured.2⟩

/-- The symbol of a name that may not be `n` or `y`. -/
def namedSymbol (p : Problem) (name : List Char) : Reading SymbolId :=
  if name = ['n'] ∨ name = ['y'] then Reading.problem p else Reading.symbol (String.ofList name)

/-- A captured range. -/
def boundsPart (low high : List Char) : Reading Bounds := do
  pure ⟨← operand low, ← operand high⟩

/-- The type that a keyword names. -/
def typeOf : String → ValueType
  | "int" => .int
  | "hex" => .hex
  | "string" => .string
  | _ => .bool

/-- The block that a keyword ends. -/
def closed : String → BlockKind
  | "endmenu" => .menu
  | "endchoice" => .choice
  | _ => .condition

/-- The statement of what a form captures. -/
def ofCaptured : Captured → Statement
  | .config keyword name => .config (keyword = "menuconfig") (namedSymbol .badName name)
  | .menu text => .menu (textPart text)
  | .choice name => .choice (pure (name.map String.ofList))
  | .comment text => .comment (textPart text)
  | .mainmenu text => .mainmenu (textPart text)
  | .source keyword path =>
    .source (keyword = "rsource" || keyword = "orsource") (keyword = "source" || keyword = "rsource")
      (textPart path)
  | .block expr => .block expr.resolve
  | .close keyword => .close (closed keyword) (pure ())
  | .type keyword captured => .type (typeOf keyword) (captured.map promptOf)
  | .prompt captured => .prompt (promptOf captured)
  | .default expr cond => .default expr.resolve (conditionPart cond)
  | .depends expr => .depends expr.resolve
  | .select keyword name cond =>
    let target := namedSymbol .expectedNonconstant name
    if keyword = "select" then .select target (conditionPart cond)
    else .imply target (conditionPart cond)
  | .range low high cond => .range (boundsPart low high) (conditionPart cond)
  | .visible expr => .visible expr.resolve
  | .env name => .option (pure (.env (String.ofList name)))
  | .flag keyword =>
    .option (pure (if keyword = "defconfig_list" then .defconfigList else .allnoconfigY))
  | .optional => .optional
  | .help => .help

/-! ### First words -/

/-- Whether a word is `help` among dashes. -/
def isHelpWord (word : List Char) : Bool :=
  Text.dropRightWhile (· == '-') (word.dropWhile (· == '-')) == "help".toList

/-- The words that lines with a form start with. -/
def formWords : List String :=
  ["config", "menuconfig", "menu", "endmenu", "choice", "endchoice", "if", "endif", "comment",
    "mainmenu", "source", "rsource", "osource", "orsource", "bool", "boolean", "int", "hex", "string",
    "prompt", "default", "depends", "select", "imply", "range", "visible", "option", "optional",
    "help"]

/-- Whether a line that starts with a word has to match the grammar. -/
def startsForm (word : List Char) : Bool :=
  formWords.contains (String.ofList word) || isHelpWord word

/-- The problem of a line that starts with a word and has no form. -/
def problemAfter : String → Problem
  | "config" | "menuconfig" => .badName
  | "menu" | "comment" | "mainmenu" | "source" | "rsource" | "osource" | "orsource" =>
    .expectedString
  | "choice" => .expectedChoiceName
  | "endmenu" | "endchoice" | "endif" => .extraTokens
  | "depends" => .expectedOnExpression
  | "visible" => .expectedIfExpression
  | "select" | "imply" => .expectedNonconstant
  | "range" => .expectedSymbol
  | "prompt" => .expectedPrompt
  | "option" => .unknownOption
  | _ => .malformedExpression

/-- A line up to its comment; `quote` is the quote that is open. -/
def uncommented (quote : Option Char) : List Char → List Char
  | [] => []
  | c :: s =>
    match quote with
    | some q =>
      if c = '\\' then
        match s with
        | d :: s => c :: d :: uncommented quote s
        | [] => [c]
      else c :: uncommented (if c = q then none else quote) s
    | none =>
      if c = '#' then []
      else c :: uncommented (if c = '"' || c = '\'' then some c else none) s

/-- A character of the word that starts a line. -/
def isFirstWordChar (c : Char) : Bool := c.isAlphanum || c == '_' || c == '$' || c == '-'

/-- Whether a text has a macro. -/
def hasMacro : List Char → Bool
  | '$' :: '(' :: _ => true
  | _ :: s => hasMacro s
  | [] => false

/-- The statement of a line in the second notation, where a library takes expressions. -/
def readFormLine (expression : Infix) (line : List Char) : Reading (Option Statement) := do
  Reading.beginLine line
  let code := Text.trim (uncommented none line)
  if code.isEmpty then return none
  let word := code.takeWhile isFirstWordChar
  if word.isEmpty then Reading.problem .unknownStart
  if startsForm word then
    let code ← if hasMacro code then Macro.expandText code else pure code
    match Form.parse? expression code with
    | some captured => return some (ofCaptured captured)
    | none => Reading.problem (problemAfter (String.ofList word))
  else
    Macro.readAssignment line
    return none

end Statement
end Kconfig
