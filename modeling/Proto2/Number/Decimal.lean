import Proto2.Number.Binary64
import Proto2.Number.Numeral

/-!
Decimal numerals with a fraction or an exponent, and the binary numbers nearest to them.

A decimal is a sign, a coefficient and a power of ten.  Rounding to binary is exact: the
decimal is a quotient of natural numbers of units, and the nearest magnitude to it is taken.
Decimals whose size is plainly beyond either end of the range are settled by counting
digits, so an enormous exponent costs nothing.
-/

namespace Proto2

-- Powers of natural numbers are those of the core library, whatever else is in scope.
attribute [local instance (2000)] instPowNat

/-- The decimal `coefficient * 10 ^ exponent` with a sign. -/
structure Decimal where
  negative : Bool
  coefficient : Nat
  exponent : Int
deriving DecidableEq, Repr

namespace Decimal

/-- The number of decimal digits of a natural number; zero has one. -/
def digitCount (n : Nat) : Nat :=
  (Nat.toDigits 10 n).length

/-- The value of a run of ASCII decimal digits. -/
def ofDigitRun (digits : List Char) : Nat :=
  Nat.ofDigitChars 10 digits 0

/-- The exponent that follows the digits of a numeral: zero when there is none. -/
def readExponent : List Char → Int
  | [] => 0
  | _ :: cs =>
    let (negative, digits) := Numeral.splitSign cs
    Numeral.signed negative (ofDigitRun (digits.takeWhile Char.isDigit))

/-- Reads a numeral written as digits with a point, an exponent or both. -/
def read (text : List Char) : Decimal :=
  let (negative, body) := Numeral.splitSign text
  let whole := body.takeWhile Char.isDigit
  let body := body.drop whole.length
  let fraction :=
    match body with
    | '.' :: cs => cs.takeWhile Char.isDigit
    | _ => []
  let body :=
    match body with
    | '.' :: cs => cs.drop fraction.length
    | cs => cs
  ⟨negative, ofDigitRun (whole ++ fraction), readExponent body - (fraction.length : Int)⟩

/-- The numerator of the decimal's magnitude as a quotient of units. -/
def numerator (d : Decimal) : Nat :=
  d.coefficient * 10 ^ d.exponent.toNat * Magnitude.unitsPerOne

/-- The denominator of the decimal's magnitude as a quotient of units. -/
def denominator (d : Decimal) : Nat :=
  10 ^ (-d.exponent).toNat

/-- The magnitude nearest to a decimal, none when that is beyond the greatest one.  A
magnitude is below `10 ^ 309` and the least one is above `10 ^ -324`. -/
def magnitude? (d : Decimal) : Option Magnitude :=
  let size := (digitCount d.coefficient : Int) + d.exponent
  if d.coefficient = 0 ∨ size < -330 then some .zero
  else if 330 < size then none
  else Magnitude.nearest? d.numerator d.denominator

/-- The binary number nearest to a decimal. -/
def toBinary64 (d : Decimal) : Binary64 :=
  match d.magnitude? with
  | some m => .finite d.negative m
  | none => .infinite d.negative

end Decimal

/-- The binary number nearest to what a numeral denotes. -/
def Binary64.read (text : List Char) : Binary64 :=
  (Decimal.read text).toBinary64

end Proto2
