import Kconfig.Json.Basic
import Kconfig.Text.Numeral
/-!
Writing JSON, in ASCII.

`compact` writes a value on one line; `indented` gives each item and field a line of its own, four
columns in from its container. A double is written positionally when its first digit stands between
ten-thousandths and the sixteenth place, and with an exponent otherwise.
-/
namespace Kconfig.Json

/-- A `\u` escape for a 16-bit unit. -/
def unitEscape (n : Nat) : List Char :=
  ['\\', 'u', Nat.digitChar (n / 4096 % 16), Nat.digitChar (n / 256 % 16),
    Nat.digitChar (n / 16 % 16), Nat.digitChar (n % 16)]

/-- A character inside a string. -/
def escapeChar (c : Char) : List Char :=
  match c with
  | '"' => ['\\', '"']
  | '\\' => ['\\', '\\']
  | '\n' => ['\\', 'n']
  | '\r' => ['\\', 'r']
  | '\t' => ['\\', 't']
  | '\x08' => ['\\', 'b']
  | '\x0c' => ['\\', 'f']
  | c =>
    let n := c.toNat
    if 32 ≤ n ∧ n < 128 then [c]
    else if n < 0x10000 then unitEscape n
    else unitEscape (0xD800 + (n - 0x10000) / 1024) ++ unitEscape (0xDC00 + (n - 0x10000) % 1024)

/-- A string in quotes. -/
def quoted (s : String) : String := String.ofList ('"' :: s.toList.flatMap escapeChar ++ ['"'])

/-- The decimal digits of a number without the zeros at its end, and their count. -/
def dropZeros : List Char → List Char
  | [] => []
  | c :: s =>
    match dropZeros s with
    | [] => if c = '0' then [] else [c]
    | kept => c :: kept

/-- A positive number with the given digits whose first digit has the weight `10 ^ place`. -/
def placedDigits (digits : List Char) (place : Int) : List Char :=
  if place < -4 ∨ 16 ≤ place then
    let tail := digits.drop 1
    let exponent := Nat.toDigits 10 place.natAbs
    digits.take 1 ++ (if tail.isEmpty then [] else '.' :: tail) ++
      ['e', if place < 0 then '-' else '+'] ++
      (if exponent.length < 2 then ['0'] else []) ++ exponent
  else if place < 0 then
    '0' :: '.' :: List.replicate (-place - 1).toNat '0' ++ digits
  else
    let count := place.toNat + 1
    let fraction := digits.drop count
    digits.take count ++ List.replicate (count - digits.length) '0' ++
      '.' :: (if fraction.isEmpty then ['0'] else fraction)

/-- A finite double. -/
def finiteText (isNegative : Bool) (significand : Nat) (exponent : Int) : String :=
  let sign := if isNegative then "-" else ""
  let (digits, exponent) := Double.shortest significand exponent
  if digits = 0 then sign ++ "0.0"
  else
    let all := Nat.toDigits 10 digits
    sign ++ String.ofList (placedDigits (dropZeros all) (exponent + all.length - 1))

/-- A double. -/
def doubleText : Double → String
  | .finite isNegative significand exponent => finiteText isNegative significand exponent
  | .infinite isNegative => if isNegative then "-Infinity" else "Infinity"
  | .notANumber => "NaN"

mutual

/-- A value on one line. -/
def compact : Json → String
  | .null => "null"
  | .bool b => if b then "true" else "false"
  | .int n => Text.decimal n
  | .float x => doubleText x
  | .str s => quoted s
  | .arr items => "[" ++ ", ".intercalate (compactItems items) ++ "]"
  | .obj fields => "\x7b" ++ ", ".intercalate (compactFields fields) ++ "\x7d"

def compactItems : List Json → List String
  | [] => []
  | v :: vs => compact v :: compactItems vs

def compactFields : List (String × Json) → List String
  | [] => []
  | (k, v) :: fields => (quoted k ++ ": " ++ compact v) :: compactFields fields

end

/-- Lines between two brackets; nothing between them when there are none. -/
def bracketed (first last : String) (depth : Nat) (lines : List String) : String :=
  if lines.isEmpty then first ++ last
  else
    let margin := fun n => "\n" ++ String.ofList (List.replicate (4 * n) ' ')
    let inner := margin (depth + 1)
    first ++ inner ++ ("," ++ inner).intercalate lines ++ margin depth ++ last

mutual

/-- A value over several lines, inside `depth` containers. -/
def indentedAt (depth : Nat) : Json → String
  | .arr items => bracketed "[" "]" depth (indentedItems (depth + 1) items)
  | .obj fields => bracketed "\x7b" "\x7d" depth (indentedFields (depth + 1) fields)
  | v => compact v

def indentedItems (depth : Nat) : List Json → List String
  | [] => []
  | v :: vs => indentedAt depth v :: indentedItems depth vs

def indentedFields (depth : Nat) : List (String × Json) → List String
  | [] => []
  | (k, v) :: fields => (quoted k ++ ": " ++ indentedAt depth v) :: indentedFields depth fields

end

/-- A value over several lines. -/
def indented (v : Json) : String := indentedAt 0 v

end Kconfig.Json
