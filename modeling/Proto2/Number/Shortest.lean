import Proto2.Number.Decimal

/-!
The shortest decimal text of a binary number.

Of the decimals with one digit, then two and so on, the first grid is taken on which a
decimal reads back as the number; the candidates on a grid are the two neighbours of the
number, and of two that read back the nearer one is chosen, an exact tie going to the even
coefficient.  Seventeen digits always suffice.  Whatever the search finds reads back, because
that is what it tests, and the exact expansion of the number stands behind it.

Numbers of moderate size are written in positional notation and always with a point; the
others have one digit before the point and an exponent with a sign and at least two digits.
-/

namespace Proto2

-- Powers of natural numbers are those of the core library, whatever else is in scope.
attribute [local instance (2000)] instPowNat

namespace Magnitude

/-- The exponent of the leading decimal digit of a positive magnitude: the magnitude is at
least ten to that power and less than ten times as much. -/
def leadingExponent (m : Magnitude) : Int :=
  if unitsPerOne ≤ m.units then
    (Decimal.digitCount (m.units / unitsPerOne) : Int) - 1
  else -(Decimal.digitCount ((unitsPerOne - 1) / m.units) : Int)

/-- Whether a decimal reads back as the magnitude. -/
def isReadFrom (m : Magnitude) (coefficient : Nat) (exponent : Int) : Bool :=
  (Decimal.mk false coefficient exponent).magnitude? == some m

/-- The decimal on the grid of multiples of `10 ^ exponent` that reads back as the magnitude,
the nearer one if both neighbours do. -/
def onGrid? (m : Magnitude) (exponent : Int) : Option Nat :=
  let num := m.units * 10 ^ (-exponent).toNat
  let den := unitsPerOne * 10 ^ exponent.toNat
  let below := num / den
  let twice := 2 * (num % den)
  let belowReads := m.isReadFrom below exponent
  let aboveReads := m.isReadFrom (below + 1) exponent
  let belowIsNearer := twice < den || (twice == den && below % 2 == 0)
  if belowReads && (belowIsNearer || !aboveReads) then some below
  else if aboveReads then some (below + 1)
  else none

/-- The shortest decimal, coefficient and exponent, that reads back as a positive
magnitude. -/
def shortest (m : Magnitude) : Nat × Int :=
  let lead := m.leadingExponent
  let found := (List.range 17).findSome? fun (n : Nat) =>
    let exponent := lead - (n : Int)
    (m.onGrid? exponent).map (·, exponent)
  found.getD (m.units * 5 ^ (1074 : Nat), -1074)

end Magnitude

namespace Binary64

/-- Where positional notation ends: the least and the greatest exponent of a leading digit
that is written positionally. -/
def positionalRange : Int × Int := (-4, 15)

/-- An exponent with its sign and at least two digits. -/
def exponentText (e : Int) : List Char :=
  let digits := Nat.toDigits 10 e.natAbs
  let padded := if digits.length < 2 then '0' :: digits else digits
  'e' :: (if e < 0 then '-' else '+') :: padded

/-- Digits in positional notation, the first one weighing `10 ^ e`. -/
def positionalText (digits : List Char) (e : Int) : List Char :=
  if e < 0 then '0' :: '.' :: List.replicate (-e - 1).toNat '0' ++ digits
  else
    let wholeLength := e.toNat + 1
    if digits.length ≤ wholeLength then
      digits ++ List.replicate (wholeLength - digits.length) '0' ++ ['.', '0']
    else digits.take wholeLength ++ '.' :: digits.drop wholeLength

/-- Digits in scientific notation, the first one weighing `10 ^ e`. -/
def scientificText (digits : List Char) (e : Int) : List Char :=
  match digits with
  | [] => exponentText e
  | [d] => d :: exponentText e
  | d :: ds => d :: '.' :: ds ++ exponentText e

/-- The text of digits whose first one weighs `10 ^ e`. -/
def layout (digits : List Char) (e : Int) : List Char :=
  if positionalRange.1 ≤ e ∧ e ≤ positionalRange.2 then positionalText digits e
  else scientificText digits e

/-- Digits without the zeros they end with. -/
def stripZeros (digits : List Char) : List Char :=
  (digits.reverse.dropWhile (· == '0')).reverse

/-- The text of a finite magnitude. -/
def magnitudeText (m : Magnitude) : List Char :=
  if m.mantissa = 0 then ['0', '.', '0']
  else
    let (coefficient, exponent) := m.shortest
    let digits := Nat.toDigits 10 coefficient
    layout (stripZeros digits) (exponent + (digits.length : Int) - 1)

/-- The text of a number. -/
def text : Binary64 → List Char
  | .finite false m => magnitudeText m
  | .finite true m => '-' :: magnitudeText m
  | .infinite false => ['i', 'n', 'f']
  | .infinite true => ['-', 'i', 'n', 'f']
  | .nan => ['n', 'a', 'n']

end Binary64

end Proto2
