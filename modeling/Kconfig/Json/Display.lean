import Kconfig.Json.Printer
import Kconfig.Text.Printable
/-!
Values as messages show them.

Messages quote a text with single quotes, unless it holds those and no double ones, and write out
the characters that cannot be shown. Truth values and null have words of their own.
-/
namespace Kconfig

namespace Text

/-- `count` hexadecimal digits of a number. -/
def hexDigits : Nat → Nat → List Char
  | 0, _ => []
  | count + 1, n => hexDigits count (n / 16) ++ [Nat.digitChar (n % 16)]

/-- A character inside a quoted text. -/
def quotedChar (quote c : Char) : List Char :=
  if c = '\\' ∨ c = quote then ['\\', c]
  else if c = '\t' then ['\\', 't']
  else if c = '\n' then ['\\', 'n']
  else if c = '\r' then ['\\', 'r']
  else if isPrintable c then [c]
  else if c.toNat < 0x100 then '\\' :: 'x' :: hexDigits 2 c.toNat
  else if c.toNat < 0x10000 then '\\' :: 'u' :: hexDigits 4 c.toNat
  else '\\' :: 'U' :: hexDigits 8 c.toNat

/-- A text in quotes, for a message. -/
def quotedText (s : String) : String :=
  let cs := s.toList
  let quote := if cs.contains '\'' && !cs.contains '"' then '"' else '\''
  String.ofList (quote :: cs.flatMap (quotedChar quote) ++ [quote])

end Text

namespace Json

/-- A double in a message. -/
def displayDouble : Double → String
  | .finite isNegative significand exponent => finiteText isNegative significand exponent
  | .infinite isNegative => if isNegative then "-inf" else "inf"
  | .notANumber => "nan"

mutual

/-- A value in a message. -/
def display : Json → String
  | .null => "None"
  | .bool b => if b then "True" else "False"
  | .int n => Text.decimal n
  | .float x => displayDouble x
  | .str s => Text.quotedText s
  | .arr items => "[" ++ ", ".intercalate (displayItems items) ++ "]"
  | .obj fields => "\x7b" ++ ", ".intercalate (displayFields fields) ++ "\x7d"

def displayItems : List Json → List String
  | [] => []
  | v :: vs => display v :: displayItems vs

def displayFields : List (String × Json) → List String
  | [] => []
  | (k, v) :: fields => (Text.quotedText k ++ ": " ++ display v) :: displayFields fields

end

/-- A value as text: a text stands for itself. -/
def asText : Json → String
  | .str s => s
  | v => v.display

end Json
end Kconfig
