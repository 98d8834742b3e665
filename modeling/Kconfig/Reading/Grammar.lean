import Kconfig.Reading.Infix
import Kconfig.Text.Blank
import Kconfig.Text.Lines
/-!
The second notation: the grammar of lines.

A line has one form. The forms are tried one after the other, those of properties first, and the
first that the line starts with is taken; nothing but blanks may be left then. What a form captures
stands beside its name. Tabs are blanks up to the next column before all this.
-/
namespace Kconfig

/-- What the form of a line captures: keywords, names, texts in quotes, expressions, conditions. -/
inductive Captured where
  | config (keyword : String) (name : List Char)
  | menu (prompt : List Char)
  | choice (name : Option (List Char))
  | comment (prompt : List Char)
  | mainmenu (prompt : List Char)
  | source (keyword : String) (path : List Char)
  | block (expr : Nested)
  | close (keyword : String)
  | type (keyword : String) (prompt : Option (List Char × Option Nested))
  | prompt (prompt : List Char × Option Nested)
  | default (expr : Nested) (cond : Option Nested)
  | depends (expr : Nested)
  | select (keyword : String) (name : List Char) (cond : Option Nested)
  | range (low high : List Char) (cond : Option Nested)
  | visible (expr : Nested)
  | env (name : List Char)
  | flag (keyword : String)
  | optional
  | help

namespace Grammar

/-! ### Texts in quotes -/

/-- The character that a letter after a backslash stands for, if it stands for a layout control. -/
def layout? : Char → Option Char
  | 't' => some '\t'
  | 'n' => some '\n'
  | 'f' => some '\x0c'
  | 'r' => some '\r'
  | _ => none

/-- A prompt's text without its backslashes. -/
def unescapePrompt : List Char → List Char
  | [] => []
  | '\\' :: c :: s => (layout? c).getD c :: unescapePrompt s
  | c :: s => c :: unescapePrompt s

/-- A path with its layout controls; other backslashes stay. -/
def unescapePath : List Char → List Char
  | [] => []
  | '\\' :: c :: s =>
    match layout? c with
    | some control => control :: unescapePath s
    | none => '\\' :: unescapePath (c :: s)
  | c :: s => c :: unescapePath s

/-- A quoted text on one line, read by `body`. -/
def quotedBy (body : Char → List Char → Option (List Char × List Char)) : Matcher (List Char) :=
  fun s =>
    match skip s with
    | [] => none
    | c :: s => do
      if c ≠ '"' ∧ c ≠ '\'' then none
      let (b, rest) ← body c s
      if b.any fun c => c == '\n' || c == '\r' then none
      pure (b, rest)

/-- A prompt in quotes, where a backslash escapes. -/
def prompt? : Matcher (List Char) := fun s =>
  (quotedBy body? s).map fun (b, rest) => (unescapePrompt b, rest)

/-- A text up to a quote. -/
def plainBody? (quote : Char) (s : List Char) : Option (List Char × List Char) :=
  match s.dropWhile (· != quote) with
  | _ :: rest => some (s.takeWhile (· != quote), rest)
  | [] => none

/-- A path in quotes, where none does. -/
def path? : Matcher (List Char) := fun s =>
  (quotedBy plainBody? s).map fun (b, rest) => (unescapePath b, rest)

/-! ### Parts of forms -/

/-- The first matcher that takes something. -/
def firstOf {α : Type} : List (Matcher α) → Matcher α
  | [], _ => none
  | m :: ms, s =>
    match m s with
    | some taken => some taken
    | none => firstOf ms s

/-- What may be left out. -/
def optionally {α : Type} (m : Matcher α) : Matcher (Option α) :=
  firstOf [some <$> m, pure none]

def keyword (word : String) : Matcher String := fun s => (keyword? word s).map fun s => (word, s)

/-- One of some keywords. -/
def oneOf (words : List String) : Matcher String := firstOf (words.map keyword)

def sign (sign : String) : Matcher Unit := fun s => (sign? sign s).map fun s => ((), s)

/-- The word `help` among dashes. -/
def helpWord : Matcher Unit := fun s =>
  match (skip s).dropWhile (· == '-') with
  | 'h' :: 'e' :: 'l' :: 'p' :: s => some ((), s.dropWhile (· == '-'))
  | _ => none

end Grammar

/-! ### Forms -/

namespace Form
open Grammar

section
variable (expression : Infix)

/-- An expression as a list of its own. -/
def listed : Matcher Nested := do return .group [← expression]

def condition : Matcher Nested := do
  let _ ← keyword "if"
  listed expression

def config : Matcher Captured := do
  let keyword ← oneOf ["config", "menuconfig"]
  return .config keyword (← name?)

def menu : Matcher Captured := do
  let _ ← keyword "menu"
  return .menu (← prompt?)

def choice : Matcher Captured := do
  let _ ← keyword "choice"
  return .choice (← optionally name?)

def comment : Matcher Captured := do
  let _ ← keyword "comment"
  return .comment (← prompt?)

def mainmenu : Matcher Captured := do
  let _ ← keyword "mainmenu"
  return .mainmenu (← prompt?)

def source : Matcher Captured := do
  let keyword ← oneOf ["source", "rsource", "osource", "orsource"]
  return .source keyword (← path?)

def block : Matcher Captured := do
  let _ ← keyword "if"
  return .block (← listed expression)

def close : Matcher Captured := do return .close (← oneOf ["endmenu", "endchoice", "endif"])

def entries : List (Matcher Captured) :=
  [config, menu, choice, comment, mainmenu, source, block expression, close]

/-- A prompt and its condition. -/
def prompted : Matcher (List Char × Option Nested) := do
  let prompt ← prompt?
  return (prompt, ← optionally (condition expression))

def type : Matcher Captured := do
  let keyword ← oneOf ["bool", "boolean", "int", "hex", "string"]
  return .type keyword (← optionally (prompted expression))

def prompt : Matcher Captured := do
  let _ ← keyword "prompt"
  return .prompt (← prompted expression)

def default : Matcher Captured := do
  let _ ← keyword "default"
  let expr ← listed expression
  return .default expr (← optionally (condition expression))

def depends : Matcher Captured := do
  let _ ← keyword "depends"
  let _ ← keyword "on"
  return .depends (← listed expression)

def select : Matcher Captured := do
  let keyword ← oneOf ["select", "imply"]
  let name ← name?
  return .select keyword name (← optionally (condition expression))

def range : Matcher Captured := do
  let _ ← keyword "range"
  let low ← symbol?
  let high ← symbol?
  return .range low high (← optionally (condition expression))

def visible : Matcher Captured := do
  let _ ← keyword "visible"
  let _ ← keyword "if"
  return .visible (← listed expression)

def env : Matcher Captured := do
  let _ ← keyword "env"
  sign "="
  return .env (← path?)

def flag (word : String) : Matcher Captured := do return .flag (← keyword word)

def option : Matcher Captured := do
  let _ ← keyword "option"
  firstOf [env, flag "defconfig_list", flag "allnoconfig_y"]

def optional : Matcher Captured := do
  let _ ← keyword "optional"
  return .optional

def help : Matcher Captured := do
  helpWord
  return .help

def properties : List (Matcher Captured) :=
  [type expression, prompt expression, default expression, depends expression, select expression,
    range expression, visible expression, option, optional, help]

/-- The form of a line, up to its end. -/
def parse? (line : List Char) : Option Captured := do
  let (captured, rest) ← firstOf (properties expression ++ entries expression) (Text.expandTabs line)
  if (skip rest).isEmpty then some captured else none

end
end Form
end Kconfig
