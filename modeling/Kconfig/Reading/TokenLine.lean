import Kconfig.Reading.Token
/-!
Statements of lines that were cut into tokens.

An expression is read from the left: `||` binds weakest and joins to the right, then `&&`, then `!`,
and a relation stands between two symbols. A part of a statement takes the tokens it needs and,
when it is the last part, wants no tokens to be left.
-/
namespace Kconfig
namespace Token

/-- A symbol. -/
def takeSymbol (problem : Problem) : List Token → Except Problem (SymbolId × List Token)
  | .symbol s :: more => .ok (s, more)
  | _ => .error problem

/-- Nothing, and no tokens may be left. -/
def takeEnd : List Token → Except Problem Unit
  | [] => .ok ()
  | _ => .error .extraTokens

mutual

/-- An expression; `fuel` bounds its depth. -/
def takeExpr : Nat → List Token → Except Problem (Expr × List Token)
  | 0, _ => .error .malformedExpression
  | fuel + 1, tokens => do
    let (left, more) ← takeConj fuel tokens
    match more with
    | .or :: more =>
      let (right, more) ← takeExpr fuel more
      pure (.or left right, more)
    | _ => pure (left, more)

/-- An operand of `||`. -/
def takeConj : Nat → List Token → Except Problem (Expr × List Token)
  | 0, _ => .error .malformedExpression
  | fuel + 1, tokens => do
    let (left, more) ← takeFactor fuel tokens
    match more with
    | .and :: more =>
      let (right, more) ← takeConj fuel more
      pure (.and left right, more)
    | _ => pure (left, more)

/-- An operand of `&&`. -/
def takeFactor : Nat → List Token → Except Problem (Expr × List Token)
  | 0, _ => .error .malformedExpression
  | fuel + 1, tokens =>
    match tokens with
    | .symbol a :: .relation r :: more => do
      let (b, more) ← takeSymbol .expectedSymbol more
      pure (.compare r (.symbol a) (.symbol b), more)
    | .symbol a :: more => pure (.symbol a, more)
    | .not :: more => do
      let (e, more) ← takeFactor fuel more
      pure (.not e, more)
    | .opening :: more => do
      let (e, more) ← takeExpr fuel more
      match more with
      | .closing :: more => pure (e, more)
      | _ => throw .malformedExpression
    | _ => throw .malformedExpression

end

/-- The expression at the start of some tokens. -/
def expr (tokens : List Token) : Except Problem (Expr × List Token) :=
  takeExpr (3 * tokens.length + 3) tokens

/-- The expression that all tokens make up. -/
def wholeExpr (tokens : List Token) : Except Problem Expr := do
  let (e, more) ← expr tokens
  takeEnd more
  pure e

/-- The condition that the tokens left may state; without one it is `y`. -/
def condition : List Token → Except Problem Expr
  | .word .ifWord :: more => wholeExpr more
  | tokens => do
    takeEnd tokens
    pure .yes

/-- The text that all tokens make up. -/
def wholeText : List Token → Except Problem String
  | .text s :: more => do
    takeEnd more
    pure s
  | _ => .error .expectedString

/-- The ends of a range, and the tokens after them. -/
def bounds (tokens : List Token) : Except Problem (Bounds × List Token) := do
  let (low, more) ← takeSymbol .expectedSymbol tokens
  let (high, more) ← takeSymbol .expectedSymbol more
  pure (⟨low, high⟩, more)

end Token

namespace Statement
open Token

/-- Performs what was read, or fails at the line. -/
def part {α : Type} : Except Problem α → Reading α
  | .ok a => pure a
  | .error p => Reading.problem p

/-- The first component of what was read. -/
def firstPart {α : Type} (step : Except Problem (α × List Token)) : Reading α :=
  part (step.map (·.1))

/-- The condition after what was read, which must itself be right. -/
def conditionAfter {α : Type} (step : Except Problem (α × List Token)) : Reading Expr :=
  part do condition (← step).2

/-- A symbol that is no constant. -/
def variableSymbol (p : Problem) : List Token → Reading SymbolId
  | .symbol s :: _ => do
    if ((← get).model.symbol s).isConstant then Reading.problem p else pure s
  | _ => Reading.problem p

/-- The prompt that all tokens make up, with its condition. -/
def promptPart : List Token → PromptPart
  | .text s :: more => ⟨pure s, part (condition more)⟩
  | _ => ⟨Reading.problem .expectedPrompt, pure .yes⟩

/-- What follows the word `option`. -/
def optionPart : List Token → Except Problem OptionPart
  | .word .env :: .relation .equal :: more => (wholeText more).map .env
  | .word .env :: _ => .error .expectedEnvValue
  | .word .defconfigList :: _ => .ok .defconfigList
  | .word .allnoconfigY :: _ => .ok .allnoconfigY
  | _ => .error .unknownOption

/-- The statement that a keyword and the tokens after it make up. -/
def ofKeyword (k : Keyword) (rest : List Token) : Statement :=
  match k with
  | .config | .menuconfig =>
    .config (k = .menuconfig) do
      let s ← variableSymbol .badName rest
      part (takeEnd (rest.drop 1))
      pure s
  | .menu => .menu (part (wholeText rest))
  | .comment => .comment (part (wholeText rest))
  | .mainmenu => .mainmenu (part (wholeText rest))
  | .choice => .choice (if rest.isEmpty then pure none else some <$> part (wholeText rest))
  | .source isRelative isRequired => .source isRelative isRequired (part (wholeText rest))
  | .ifWord => .block (part (wholeExpr rest))
  | .endmenu => .close .menu (part (takeEnd rest))
  | .endchoice => .close .choice (part (takeEnd rest))
  | .endif => .close .condition (part (takeEnd rest))
  | .type t => .type t (if rest.isEmpty then none else some (promptPart rest))
  | .prompt => .prompt (promptPart rest)
  | .depends =>
    .depends (match rest with
      | .word .on :: more => part (wholeExpr more)
      | _ => Reading.problem .expectedOn)
  | .visible =>
    .visible (match rest with
      | .word .ifWord :: more => part (wholeExpr more)
      | _ => Reading.problem .expectedIf)
  | .select => .select (variableSymbol .expectedNonconstant rest) (part (condition (rest.drop 1)))
  | .imply => .imply (variableSymbol .expectedNonconstant rest) (part (condition (rest.drop 1)))
  | .default => .default (firstPart (expr rest)) (conditionAfter (expr rest))
  | .range => .range (firstPart (bounds rest)) (conditionAfter (bounds rest))
  | .option => .option (part (optionPart rest))
  | .optional => .optional
  | .help => .help
  | .on | .env | .defconfigList | .allnoconfigY => .stray

/-- The statement that tokens make up; no tokens, no statement. -/
def ofTokens : List Token → Option Statement
  | [] => none
  | .word k :: rest => some (ofKeyword k rest)
  | _ => some .stray

/-- The statement of a line in the first notation. -/
def readTokenLine (line : List Char) : Reading (Option Statement) := ofTokens <$> readLine line

end Statement

/-- The expression that a text writes in the first notation; errors show the text as the line. -/
def Reading.expression (text : String) : Reading Expr := do
  let tokens ← Token.readLine ("if ".toList ++ text.toList)
  modify fun w => { w with place.spot.text := text }
  Statement.part (Token.wholeExpr (tokens.drop 1))

end Kconfig
