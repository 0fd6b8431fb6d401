import Proto2.Literal.Integer
import Proto2.Literal.StringBody
import Proto2.Number.Decimal
import Proto2.Parser.Basic

/-!
Reading literals: from the next token to the value it denotes.

The token is consumed before its lexeme is interpreted, so a literal that denotes nothing
leaves the stream behind it.
-/

namespace Proto2.Parser

/-- The text that a string token denotes. -/
def decodeString (t : Token) : Parser String :=
  match StringBody.decode t.lexeme.toList with
  | .ok cs => return String.ofList cs
  | .error cause => throw (.parse (.lexical ⟨t.span, cause⟩))

/-- The number that an integer token denotes. -/
def decodeInteger (t : Token) : Parser Int :=
  match IntegerLiteral.read t.lexeme.toList with
  | .ok n => return n
  | .error e => throw (.numeral e)

/-- Consumes a string literal. -/
def stringLiteral : Parser String := do
  decodeString (← next)

/-- Consumes an integer literal. -/
def integerLiteral : Parser Int := do
  decodeInteger (← next)

/-- Consumes a floating-point literal. -/
def floatLiteral : Parser Binary64 := do
  return Binary64.read (← next).lexeme.toList

/-- Consumes the string literals that follow one another. -/
def stringLiterals : Nat → Parser (List String)
  | 0 => throw .outOfBudget
  | n + 1 => do
    if ← isAt .string then
      let first ← stringLiteral
      let rest ← stringLiterals n
      return first :: rest
    else
      return []

/-- Consumes adjacent string literals, which denote one text. -/
def adjacentStrings : Parser String := do
  let first ← stringLiteral
  let rest ← stringLiterals (← budget)
  return String.join (first :: rest)

end Proto2.Parser
