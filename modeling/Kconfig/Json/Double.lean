/-!
Numbers in double precision.

A finite double is a significand of at most 53 bits times a power of two. A decimal number becomes
the nearest double, the one with an even significand when two are as near; a number that is too
large becomes infinite. A double is written with the fewest decimal digits that are read back as
it, the nearest ones of these.
-/
namespace Kconfig

inductive Double where
  | finite (isNegative : Bool) (significand : Nat) (exponent : Int)
  | infinite (isNegative : Bool)
  | notANumber
  deriving DecidableEq, Repr, Inhabited

namespace Double

/-- A quotient over a power of a base, as a quotient. -/
def scaled (base n d : Nat) : Int → Nat × Nat
  | .ofNat k => (n, d * Nat.pow base k)
  | .negSucc k => (n * Nat.pow base (k + 1), d)

/-- The whole number nearest to a quotient, the even one of two. -/
def nearest (n d : Nat) : Nat :=
  let whole := n / d
  let rest := 2 * (n % d)
  if rest < d || (rest == d && whole % 2 == 0) then whole else whole + 1

/-- The bits of a significand. -/
def precision : Nat := 53

/-- The exponents of the smallest and the largest doubles. -/
def minExponent : Int := -1074
def maxExponent : Int := 971

/-- The double nearest to a positive quotient. -/
def ofQuotient (isNegative : Bool) (n d : Nat) : Double :=
  -- over two to this power the quotient has as many bits as a significand, or one more
  let least : Int := (Nat.log2 n : Int) - Nat.log2 d - precision
  let (a, b) := scaled 2 n d least
  let exponent := max minExponent (if a / b < Nat.pow 2 precision then least else least + 1)
  let (a, b) := scaled 2 n d exponent
  let significand := nearest a b
  let (significand, exponent) :=
    if significand = Nat.pow 2 precision then (significand / 2, exponent + 1)
    else (significand, exponent)
  if maxExponent < exponent then .infinite isNegative
  else .finite isNegative significand exponent

/-- How many decimal digits a number has. -/
def digitCount (n : Nat) : Nat := (Nat.toDigits 10 n).length

/-- A bound on the places of the first digits of doubles. -/
def maxPlace : Int := 400

/-- The double nearest to `digits · 10 ^ exponent`. -/
def ofDecimal (isNegative : Bool) (digits : Nat) (exponent : Int) : Double :=
  let place := exponent + digitCount digits
  if digits = 0 || place < -maxPlace then .finite isNegative 0 0
  else if maxPlace < place then .infinite isNegative
  else
    let (n, d) := scaled 10 digits 1 (-exponent)
    ofQuotient isNegative n d

/-- Decimal digits of a positive finite double, and their exponent: `count` digits, or as many more
as it takes until they are read back as the double. -/
def shortestFrom (significand : Nat) (exponent place : Int) : Nat → Nat → Nat × Int
  | 0, _ => (0, 0)
  | fuel + 1, count =>
    let unit := place + 1 - count
    let (n, d) := scaled 2 significand 1 (-exponent)
    let (n, d) := scaled 10 n d unit
    let isBack := fun digits => ofDecimal false digits unit == .finite false significand exponent
    match [nearest n d, n / d, n / d + 1].find? isBack with
    | some digits => (digits, unit)
    | none => shortestFrom significand exponent place fuel (count + 1)

/-- As many digits as any double needs. -/
def maxDigits : Nat := 17

/-- The place of the first decimal digit of a positive quotient. -/
def placeOf (n d : Nat) : Int :=
  let place : Int := (digitCount n : Int) - digitCount d
  let (a, b) := scaled 10 n d place
  if b ≤ a then place else place - 1

/-- The fewest decimal digits of a finite double, and their exponent. -/
def shortest (significand : Nat) (exponent : Int) : Nat × Int :=
  if significand = 0 then (0, 0)
  else
    let (n, d) := scaled 2 significand 1 (-exponent)
    shortestFrom significand exponent (placeOf n d) maxDigits 1

/-- The part of a finite double before the point, and whether there is nothing after it. -/
def wholePart (isNegative : Bool) (significand : Nat) (exponent : Int) : Int × Bool :=
  let (n, d) := scaled 2 significand 1 (-exponent)
  let whole : Int := (n / d : Nat)
  (if isNegative then -whole else whole, n % d == 0)

/-- Whether a double is other than zero. -/
def isFilled : Double → Bool
  | .finite _ significand _ => significand ≠ 0
  | _ => true

example : ofDecimal false 1 23 = .finite false 0x152d02c7e14af6 24 := by decide +kernel
example : shortest 0x152d02c7e14af6 24 = (10, 22) := by decide +kernel
example : shortest (Nat.pow 2 52) (-96) = (5684341886080802, -29) := by decide +kernel

end Double
end Kconfig
