import Proto2.Source.Span
import Proto2.Text.Quoted

/-!
Lexical errors: what can be wrong with the characters of a source text, apart from how its
tokens follow one another.
-/

namespace Proto2

/-- What is wrong with some characters. -/
inductive LexicalCause where
  | unterminatedComment
  | unterminatedString
  | unexpectedCharacter (c : Char)
  | unterminatedEscape
  | missingHexDigit
  | invalidEscape (c : Char)
deriving DecidableEq, Repr

namespace LexicalCause

/-- What is wrong, in words. -/
def message : LexicalCause → String
  | unterminatedComment => "unterminated block comment"
  | unterminatedString => "unterminated string literal"
  | unexpectedCharacter c => "unexpected character " ++ String.ofList (Text.quoted [c])
  | unterminatedEscape => "unterminated escape sequence"
  | missingHexDigit => "expected a digit after \\x or \\X"
  | invalidEscape c => "invalid escape sequence \\" ++ c.toString

/-- What may help. -/
def hint? : LexicalCause → Option String
  | unterminatedComment => some "add closing */"
  | unterminatedString => some "close the quote"
  | unexpectedCharacter _ => some "remove the character"
  | unterminatedEscape => none
  | missingHexDigit => none
  | invalidEscape _ =>
    some "use one of \\a \\b \\f \\n \\r \\t \\v \\\\ \\' \\\" \\NNN \\xHH"

end LexicalCause

/-- A lexical error and the text it is about. -/
structure LexicalError where
  span : Span
  cause : LexicalCause
deriving DecidableEq, Repr

end Proto2
