import Kconfig.Text.Blank
import Kconfig.Text.Digit
/-!
Whole numbers as text.

A numeral is a sign, an optional `0x`, `0o` or `0b` where the notation allows one, and digits with
single underscores between them; blanks may stand around it. Digits of any script count. `readInt`
gives the number, or nothing for any other text; `decimal` and `hex` write numbers in the two
notations that values use. Numbers have any length here: a limit on the digits that may be read or
written in decimal notation (4300 is a usual one) is not modelled.
-/
namespace Kconfig.Text

/-- Decimal, hexadecimal, or whatever the prefix of the numeral says. -/
inductive Radix where
  | ten | sixteen | any
  deriving DecidableEq, Repr

/-- A character beyond ASCII as the ASCII character that means the same in a numeral. -/
def plainNumeralChar (c : Char) : Char :=
  if c.toNat < 127 then c
  else if isBlank c then ' '
  else match digitValue? c with
    | some d => Nat.digitChar d
    | none => '?'

/-- The value of an ASCII digit or letter as a digit of the base. -/
def digitIn (base : Nat) (c : Char) : Option Nat :=
  let value :=
    if c.isDigit then some (c.toNat - 48)
    else if c.isLower then some (c.toNat - 87)
    else if c.isUpper then some (c.toNat - 55)
    else none
  value.filter (· < base)

/-- The number whose digits so far make `n`; an underscore may stand before a digit. -/
def readDigits (base n : Nat) : List Char → Option Nat
  | [] => some n
  | '_' :: c :: s => (digitIn base c).bind fun d => readDigits base (n * base + d) s
  | c :: s => (digitIn base c).bind fun d => readDigits base (n * base + d) s

/-- The number that digits, starting with one, write in the base. -/
def readNat (base : Nat) : List Char → Option Nat
  | [] => none
  | c :: s => (digitIn base c).bind fun d => readDigits base d s

/-- `readNat` after a prefix, which one underscore may follow. -/
def readPrefixed (base : Nat) : List Char → Option Nat
  | '_' :: s => readNat base s
  | s => readNat base s

/-- The number without its sign. Without a prefix, `any` takes no leading zero but in zero. -/
def readMagnitude : Radix → List Char → Option Nat
  | .ten, s => readNat 10 s
  | .sixteen, '0' :: 'x' :: s | .sixteen, '0' :: 'X' :: s => readPrefixed 16 s
  | .sixteen, s => readNat 16 s
  | .any, '0' :: 'x' :: s | .any, '0' :: 'X' :: s => readPrefixed 16 s
  | .any, '0' :: 'o' :: s | .any, '0' :: 'O' :: s => readPrefixed 8 s
  | .any, '0' :: 'b' :: s | .any, '0' :: 'B' :: s => readPrefixed 2 s
  | .any, '0' :: s => (readNat 10 ('0' :: s)).filter (· == 0)
  | .any, s => readNat 10 s

/-- The number with its sign. -/
def readSigned (radix : Radix) : List Char → Option Int
  | '-' :: s => (readMagnitude radix s).map fun n => -(n : Int)
  | '+' :: s => (readMagnitude radix s).map Int.ofNat
  | s => (readMagnitude radix s).map Int.ofNat

/-- The whole number that a text writes. -/
def readInt (radix : Radix) (s : List Char) : Option Int :=
  readSigned radix (dropRightWhile asciiBlank ((s.map plainNumeralChar).dropWhile asciiBlank))

/-- Whether a text writes a whole number. -/
def isNumeral (radix : Radix) (s : String) : Bool := (readInt radix s.toList).isSome

/-- A number in the digits of a base, with a mark between sign and digits. -/
def signedDigits (base : Nat) (mark : String) (n : Int) : String :=
  (if n < 0 then "-" else "") ++ mark ++ String.ofList (Nat.toDigits base n.natAbs)

/-- Decimal notation. -/
def decimal (n : Int) : String := signedDigits 10 "" n

/-- Hexadecimal notation with small letters; the sign stands before `0x`. -/
def hex (n : Int) : String := signedDigits 16 "0x" n

example : readInt .any " -0x_1f\n".toList = some (-31) := by decide
example : readInt .any "010".toList = none := by decide
example : readInt .ten "1__0".toList = none := by decide

end Kconfig.Text
