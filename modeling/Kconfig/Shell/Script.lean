import Kconfig.Text.Blank
/-!
The command language of `$(shell,...)`: its form.

A script is a list of commands joined by `;`, `&&` and `||`; a command is words and redirections,
or a script in parentheses. Words hold plain and quoted text and references to variables. Reading
takes the text apart into tokens, quotes first, and the tokens into a script; what does not fit
makes the whole script unreadable.
-/
namespace Kconfig.Shell

/-- A stretch of a word. Values that are not quoted are split at blanks. -/
inductive Piece where
  | text (s : List Char)
  | value (name : String) (quoted : Bool)
  deriving DecidableEq, Repr

abbrev Word := List Piece

/-- What a redirection does with its stream. -/
inductive Direction where
  | write | append | duplicate | input
  deriving DecidableEq, Repr

inductive Token where
  | word (w : Word)
  | redirect (stream : Nat) (direction : Direction)
  | semicolon | andThen | orElse | opening | closing
  deriving DecidableEq, Repr

structure Redirect where
  stream : Nat
  direction : Direction
  target : Word
  deriving DecidableEq, Repr

inductive Script where
  | nothing
  | run (words : List Word) (redirects : List Redirect)
  | subshell (body : Script) (redirects : List Redirect)
  | both (a b : Script)
  | either (a b : Script)
  | inTurn (a b : Script)
  deriving Repr

def isNameChar (c : Char) : Bool := c.isAlphanum || c == '_'

/-- The reference after a `$`: the variable and the rest. -/
def reference? (s : List Char) : Option (String × List Char) :=
  match s with
  | '{' :: s =>
    match s.dropWhile isNameChar with
    | '\x7d' :: rest => some (String.ofList (s.takeWhile isNameChar), rest)
    | _ => none
  | '?' :: s => some ("?", s)
  | _ =>
    let name := s.takeWhile isNameChar
    if name.isEmpty then none else some (String.ofList name, s.drop name.length)

/-- The pieces of a double-quoted text and the rest after its end; `fuel` is at least the length. -/
def quotedPieces : Nat → List Char → Option (List Piece × List Char)
  | 0, _ => none
  | _, [] => none
  | _, '"' :: s => some ([.text []], s)
  | fuel + 1, '\\' :: c :: s =>
    (quotedPieces fuel s).map fun (ps, rest) =>
      (.text (if c == '"' || c == '\\' || c == '$' || c == '`' then [c]
        else if c == '\n' then [] else ['\\', c]) :: ps, rest)
  | fuel + 1, '$' :: s =>
    match reference? s with
    | some (name, s) => (quotedPieces fuel s).map fun (ps, rest) => (.value name true :: ps, rest)
    | none => (quotedPieces fuel s).map fun (ps, rest) => (.text ['$'] :: ps, rest)
  | fuel + 1, c :: s => (quotedPieces fuel s).map fun (ps, rest) => (.text [c] :: ps, rest)

/-- Whether a character ends a word. -/
def endsWord (c : Char) : Bool :=
  c == ' ' || c == '\t' || c == '\n' || c == ';' || c == '&' || c == '|' || c == '<' || c == '>' ||
    c == '(' || c == ')'

/-- The pieces of a word and the rest after it; `fuel` is at least the length. -/
def wordPieces : Nat → List Char → Option (List Piece × List Char)
  | 0, _ => none
  | _, [] => some ([], [])
  | fuel + 1, c :: s =>
    let more := fun (p : Piece) (s : List Char) =>
      (wordPieces fuel s).map fun (ps, rest) => (p :: ps, rest)
    if endsWord c then some ([], c :: s)
    else if c = '\'' then
      match s.dropWhile (· != '\'') with
      | _ :: rest => more (.text (s.takeWhile (· != '\''))) rest
      | [] => none
    else if c = '"' then do
      let (ps, rest) ← quotedPieces (s.length + 1) s
      let (qs, rest) ← wordPieces fuel rest
      pure (ps ++ qs, rest)
    else if c = '\\' then
      match s with
      | '\n' :: s => more (.text []) s
      | d :: s => more (.text [d]) s
      | [] => more (.text ['\\']) []
    else if c = '$' then
      match reference? s with
      | some (name, s) => more (.value name false) s
      | none => more (.text ['$']) s
    else more (.text [c]) s

/-- The redirection that a text starts with, when its stream number is read. -/
def redirect? (stream : Option Nat) : List Char → Option (Token × List Char)
  | '>' :: '>' :: s => some (.redirect (stream.getD 1) .append, s)
  | '>' :: '&' :: s => some (.redirect (stream.getD 1) .duplicate, s)
  | '>' :: '|' :: s => some (.redirect (stream.getD 1) .write, s)
  | '>' :: s => some (.redirect (stream.getD 1) .write, s)
  | '<' :: s => some (.redirect (stream.getD 0) .input, s)
  | _ => none

/-- The tokens of a text; `fuel` is at least its length. A comment goes on to its line's end. -/
def tokens : Nat → List Char → Option (List Token)
  | 0, _ => some []
  | _, [] => some []
  | fuel + 1, c :: s =>
    let more := fun (t : Token) (s : List Char) => (tokens fuel s).map (t :: ·)
    if c == ' ' || c == '\t' then tokens fuel s
    else if c == '#' then tokens fuel (s.dropWhile (· != '\n'))
    else if c == ';' || c == '\n' then more .semicolon s
    else if c == '(' then more .opening s
    else if c == ')' then more .closing s
    else match c, s with
      | '&', '&' :: s => more .andThen s
      | '|', '|' :: s => more .orElse s
      | '&', _ => none
      | '|', _ => none
      | _, _ =>
        let stream := if c.isDigit then some (c.toNat - 48) else none
        match redirect? stream (if c.isDigit then s else c :: s) with
        | some (t, rest) => more t rest
        | none => do
          let (ps, rest) ← wordPieces (s.length + 2) (c :: s)
          more (.word ps) rest

/-- The words and redirections of a simple command, and the rest. -/
def simpleParts : List Token → Option (List Word × List Redirect × List Token)
  | .word w :: ts => (simpleParts ts).map fun (ws, rs, rest) => (w :: ws, rs, rest)
  | .redirect stream direction :: .word w :: ts =>
    (simpleParts ts).map fun (ws, rs, rest) => (ws, ⟨stream, direction, w⟩ :: rs, rest)
  | .redirect _ _ :: _ => none
  | ts => some ([], [], ts)

mutual

/-- A command, and the rest; `fuel` is at least three times the number of tokens. -/
def readCommand : Nat → List Token → Option (Script × List Token)
  | 0, _ => none
  | fuel + 1, .opening :: ts => do
    match ← readScript fuel ts with
    | (body, .closing :: ts) =>
      match ← simpleParts ts with
      | ([], redirects, rest) => pure (.subshell body redirects, rest)
      | _ => none
    | _ => none
  | _, ts => do
    match ← simpleParts ts with
    | ([], [], _) => none
    | (words, redirects, rest) => pure (.run words redirects, rest)

/-- Commands joined by `&&` and `||`, the first of them read. -/
def readChain : Nat → Script → List Token → Option (Script × List Token)
  | 0, _, _ => none
  | fuel + 1, a, .andThen :: ts => do
    let (b, ts) ← readCommand fuel ts
    readChain fuel (.both a b) ts
  | fuel + 1, a, .orElse :: ts => do
    let (b, ts) ← readCommand fuel ts
    readChain fuel (.either a b) ts
  | _, a, ts => some (a, ts)

/-- Chains one after the other, up to a closing parenthesis or the end. -/
def readScript : Nat → List Token → Option (Script × List Token)
  | 0, _ => none
  | _, [] => some (.nothing, [])
  | _, .closing :: ts => some (.nothing, .closing :: ts)
  | fuel + 1, .semicolon :: ts => readScript fuel ts
  | fuel + 1, ts => do
    let (a, ts) ← readCommand fuel ts
    let (a, ts) ← readChain fuel a ts
    match ts with
    | .semicolon :: ts =>
      let (b, ts) ← readScript fuel ts
      pure (.inTurn a b, ts)
    | ts => pure (a, ts)

end

/-- The script that a text writes. -/
def Script.read? (text : String) : Option Script := do
  let ts ← tokens (text.length + 1) text.toList
  match ← readScript (3 * ts.length + 3) ts with
  | (script, []) => pure script
  | _ => none

end Kconfig.Shell
