import Kconfig.Macro.Expand
import Kconfig.Reading.Statement
/-!
The first notation of lines: tokens.

A line is cut into keywords, operators, symbols and texts from left to right. Whether a word or a
quoted text is a text or a symbol hangs on the token before it. Symbols are registered as soon as
they are seen. A line that does not start with a keyword is a comment, an assignment to a macro
variable, or macros that expand to nothing; it has no tokens.
-/
namespace Kconfig

inductive Keyword where
  | config | menuconfig | menu | endmenu | choice | endchoice | ifWord | endif | comment | mainmenu
  | source (isRelative isRequired : Bool)
  | type (t : ValueType)
  | prompt | default | depends | on | select | imply | range | visible | help
  | option | env | defconfigList | allnoconfigY | optional
  deriving DecidableEq, Repr

/-- The keyword of a word. -/
def Keyword.find? : String → Option Keyword
  | "config" => some .config
  | "menuconfig" => some .menuconfig
  | "menu" => some .menu
  | "endmenu" => some .endmenu
  | "choice" => some .choice
  | "endchoice" => some .endchoice
  | "if" => some .ifWord
  | "endif" => some .endif
  | "comment" => some .comment
  | "mainmenu" => some .mainmenu
  | "source" => some (.source false true)
  | "rsource" => some (.source true true)
  | "osource" | "gsource" => some (.source false false)
  | "orsource" | "grsource" => some (.source true false)
  | "bool" | "boolean" => some (.type .bool)
  | "string" => some (.type .string)
  | "int" => some (.type .int)
  | "hex" => some (.type .hex)
  | "prompt" => some .prompt
  | "default" => some .default
  | "depends" => some .depends
  | "on" => some .on
  | "select" => some .select
  | "imply" => some .imply
  | "range" => some .range
  | "visible" => some .visible
  | "help" | "---help---" => some .help
  | "option" => some .option
  | "env" => some .env
  | "defconfig_list" => some .defconfigList
  | "allnoconfig_y" => some .allnoconfigY
  | "optional" => some .optional
  | _ => none

inductive Token where
  | word (k : Keyword)
  | symbol (s : SymbolId)
  | text (s : String)
  | relation (r : Relation)
  | and | or | not | opening | closing
  deriving DecidableEq, Repr

/-- Whether a text follows the token, rather than a symbol. -/
def Token.expectsText : Token → Bool
  | .word k =>
    match k with
    | .type _ | .choice | .comment | .mainmenu | .menu | .prompt | .source .. => true
    | _ => false
  | _ => false

namespace Token

/-- A character of the word that starts a line. -/
def isCommandChar (c : Char) : Bool := c.isAlphanum || c == '_' || c == '$' || c == '-'

/-- The operator that a text starts with, and the text after it. -/
def operator? : List Char → Option (Token × List Char)
  | '&' :: '&' :: s => some (.and, s)
  | '|' :: '|' :: s => some (.or, s)
  | '=' :: s => some (.relation .equal, s)
  | '!' :: '=' :: s => some (.relation .unequal, s)
  | '!' :: s => some (.not, s)
  | '(' :: s => some (.opening, s)
  | ')' :: s => some (.closing, s)
  | '<' :: '=' :: s => some (.relation .lessEqual, s)
  | '<' :: s => some (.relation .less, s)
  | '>' :: '=' :: s => some (.relation .greaterEqual, s)
  | '>' :: s => some (.relation .greater, s)
  | _ => none

/-- The quoted text at the start of `s`, whose quote is `quote`, and the text after it. A text
without macros and escapes ends at the next such quote. -/
def readQuoted (quote : Char) (s : List Char) : Reading (String × List Char) := do
  if s.contains '$' || s.contains '\\' then
    let (body, rest) ← Macro.readString quote s
    pure (String.ofList (← Reading.expandEnv body), rest)
  else
    match Macro.readPlainQuoted quote s with
    | some (body, rest) => pure (String.ofList body, rest)
    | none => Reading.problem .openString

/-- The token of a word and the text after it and its blanks. -/
def readWord (previous : Token) (word s : List Char) : Reading (Token × List Char) := do
  let name := String.ofList word
  let rest := (s.drop word.length).dropWhile Text.asciiBlank
  match Keyword.find? name with
  | some k => pure (.word k, rest)
  | none =>
    if previous.expectsText then
      if previous ≠ .word .choice then
        Reading.warnHere (.unquotedWord name (Text.trimmed (← get).place.spot.text))
      pure (.text name, rest)
    else if word.contains '$' then
      let (name, rest) ← Macro.readName s
      pure (.symbol (← Reading.word (String.ofList name)), rest)
    else pure (.symbol (← Reading.word name), rest)

/-- The token at the start of a text that is no word, and the text after it and its blanks. -/
def readOther (first previous : Token) (c : Char) (s : List Char) :
    Reading (Token × List Char) := do
  if c = '"' ∨ c = '\'' then
    let (body, rest) ← readQuoted c s
    let token ←
      if previous.expectsText || first == .word .option then pure (.text body)
      else pure (.symbol (← Reading.constant body))
    pure (token, Text.trimLeft rest)
  else
    match operator? (c :: s) with
    | some (token, rest) => pure (token, Text.trimLeft rest)
    | none => Reading.problem .unknownTokens

/-- The tokens of the rest of a line, up to a comment; `fuel` is at least its length. -/
def readRest (first : Token) : Nat → Token → List Char → Reading (List Token)
  | 0, _, _ => pure []
  | _, _, [] => pure []
  | fuel + 1, previous, c :: s => do
    let word := (c :: s).takeWhile Macro.isNameChar
    if c = '#' then pure []
    else
      let (token, rest) ←
        if word.isEmpty then readOther first previous c s else readWord previous word (c :: s)
      let tokens ← readRest first fuel token rest
      pure (token :: tokens)

/-- The tokens of a line; none for a line without a statement. -/
def readLine (line : List Char) : Reading (List Token) := do
  Reading.beginLine line
  let s := line.dropWhile Text.asciiBlank
  let word := s.takeWhile isCommandChar
  if word.isEmpty then
    if Text.allBlank line || (Text.trimLeft line).head? == some '#' then pure []
    else Reading.problem .unknownStart
  else
    match Keyword.find? (String.ofList word) with
    | some k =>
      let rest := (s.drop word.length).dropWhile Text.asciiBlank
      pure (.word k :: (← readRest (.word k) (rest.length + 1) (.word k) rest))
    | none =>
      let blankOrDash := fun c => c == ' ' || c == '\t' || c == '\n' || c == '-'
      if Text.dropRightWhile blankOrDash (line.dropWhile blankOrDash) = "help".toList then
        pure [.word .help]
      else
        Macro.readAssignment line
        pure []

end Token
end Kconfig
