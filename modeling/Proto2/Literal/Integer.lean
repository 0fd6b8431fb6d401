import Proto2.Number.Numeral

/-!
Integer literals: decimal, or hexadecimal after `0x`, with an optional sign in front.
-/

namespace Proto2.IntegerLiteral

/-- Whether a character is a sign. -/
def isSign (c : Char) : Bool :=
  c == '+' || c == '-'

/-- The magnitude that stands behind the signs of a literal. -/
def readMagnitude : List Char → Except Numeral.ReadError Int
  | '0' :: x :: digits =>
    if x = 'x' ∨ x = 'X' then Numeral.read 16 digits else Numeral.read 10 ('0' :: x :: digits)
  | body => Numeral.read 10 body

/-- The number a literal denotes.  It is negative when the first character is a minus. -/
def read (lexeme : List Char) : Except Numeral.ReadError Int :=
  let negative := lexeme.head? == some '-'
  (readMagnitude (lexeme.dropWhile isSign)).map fun n => if negative then -n else n

end Proto2.IntegerLiteral
