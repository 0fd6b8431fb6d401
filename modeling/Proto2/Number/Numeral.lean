import Proto2.Text.Blank
import Proto2.Text.DecimalDigit
import Proto2.Text.Quoted

/-!
Integer numerals.

Reading is liberal: white space around the numeral, a sign, digits of any script, and single
underscores between digits.  Conversion between a number and its decimal digits is bounded:
a numeral of more than `digitLimit` decimal digits is neither read nor written.  Hexadecimal
is not bounded.
-/

namespace Proto2.Numeral

-- Powers of natural numbers are those of the core library, whatever else is in scope.
attribute [local instance (2000)] instPowNat

/-- The most decimal digits that are converted to or from a number. -/
def digitLimit : Nat := 4300

/-- Why a text is not read as an integer. -/
inductive ReadError where
  | malformed (base : Nat) (text : String)
  | tooManyDigits (count : Nat)
deriving DecidableEq, Repr

/-- The words of a reading error. -/
def ReadError.message : ReadError → String
  | .malformed base text =>
    "invalid literal for int() with base " ++ toString base ++ ": " ++
      String.ofList ((Text.quoted text.toList).take 200)
  | .tooManyDigits count =>
    "Exceeds the limit (" ++ toString digitLimit ++
      " digits) for integer string conversion: value has " ++ toString count ++
      " digits; use sys.set_int_max_str_digits() to increase the limit"

/-- The number cannot be written: it has more than `digitLimit` decimal digits. -/
structure Unwritable where
deriving DecidableEq, Repr

/-- The words for a number that cannot be written. -/
def Unwritable.message (_ : Unwritable) : String :=
  "Exceeds the limit (" ++ toString digitLimit ++
    " digits) for integer string conversion; " ++
    "use sys.set_int_max_str_digits() to increase the limit"

/-- White space around a numeral: of the blanks, all but the four information separators. -/
def isSpace (c : Char) : Bool :=
  Text.isBlank c && !(0x1C ≤ c.toNat && c.toNat ≤ 0x1F)

/-- The value of a digit: a decimal digit of any script, or a letter of either case. -/
def digitValue? (base : Nat) (c : Char) : Option Nat :=
  let value :=
    if 'a' ≤ c ∧ c ≤ 'z' then some (c.toNat - 'a'.toNat + 10)
    else if 'A' ≤ c ∧ c ≤ 'Z' then some (c.toNat - 'A'.toNat + 10)
    else Text.decimalDigit? c
  value.filter (· < base)

/-- The number that digits denote in a base, the first digit weighing most. -/
def ofDigits (base : Nat) (digits : List Nat) : Nat :=
  digits.foldl (fun n d => base * n + d) 0

/-- Whether every underscore stands between two other characters that are none. -/
def underscoresSeparate : List Char → Bool
  | [] => true
  | '_' :: _ => false
  | _ :: '_' :: [] => false
  | _ :: '_' :: cs => underscoresSeparate cs
  | _ :: cs => underscoresSeparate cs

/-- What follows the mark of a hexadecimal numeral, a zero and an `x`, if it has one; an
underscore may stand after the mark. -/
def dropHexMark : List Char → List Char
  | z :: x :: cs =>
    if Text.decimalDigit? z = some 0 ∧ (x = 'x' ∨ x = 'X') then
      match cs with
      | '_' :: cs => cs
      | cs => cs
    else z :: x :: cs
  | cs => cs

/-- Whether a numeral is negative, and what follows its sign. -/
def splitSign : List Char → Bool × List Char
  | '-' :: cs => (true, cs)
  | '+' :: cs => (false, cs)
  | cs => (false, cs)

/-- The number with the given magnitude. -/
def signed (negative : Bool) (magnitude : Nat) : Int :=
  if negative then -(magnitude : Int) else magnitude

/-- Reads an integer in base 10 or 16. -/
def read (base : Nat) (text : List Char) : Except ReadError Int :=
  let (negative, body) := splitSign (text.dropWhile isSpace)
  let body := if base = 16 then dropHexMark body else body
  let run := body.takeWhile fun c => c = '_' || (digitValue? base c).isSome
  let digits := run.filterMap (digitValue? base)
  if !underscoresSeparate run then .error (.malformed base (String.ofList text))
  else if base = 10 ∧ digitLimit < digits.length then .error (.tooManyDigits digits.length)
  else if digits.isEmpty || !(body.drop run.length).all isSpace then
    .error (.malformed base (String.ofList text))
  else .ok (signed negative (ofDigits base digits))

/-- The decimal text of a natural number. -/
def natText (n : Nat) : List Char :=
  Nat.toDigits 10 n

/-- The decimal text of an integer. -/
def text : Int → List Char
  | .ofNat n => natText n
  | .negSucc n => '-' :: natText (n + 1)

/-- Whether a number may be written in decimal. -/
def isWritable (n : Int) : Bool :=
  n.natAbs < 10 ^ digitLimit

end Proto2.Numeral
