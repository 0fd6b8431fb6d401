import Proto2.Source.Span
import Proto2.Text.Quoted

/-!
Tokens and the comments attached to them.

Comments are no tokens.  A comment belongs to the token below it, and serves as its
documentation; how the lexer decides which comments those are is said in
`Proto2.Token.Gap`.
-/

namespace Proto2

/-- The kinds of tokens. -/
inductive TokenKind where
  | identifier
  | integer
  | float
  | string
  | openBrace
  | closeBrace
  | openBracket
  | closeBracket
  | openParen
  | closeParen
  | semicolon
  | comma
  | dot
  | equals
  | colon
  | endOfInput
deriving DecidableEq, Repr

namespace TokenKind

/-- The kind of token that a punctuation character is. -/
def ofSymbol? : Char → Option TokenKind
  | '\x7b' => some .openBrace
  | '\x7d' => some .closeBrace
  | '[' => some .openBracket
  | ']' => some .closeBracket
  | '(' => some .openParen
  | ')' => some .closeParen
  | ';' => some .semicolon
  | ',' => some .comma
  | '.' => some .dot
  | '=' => some .equals
  | ':' => some .colon
  | _ => none

/-- A kind as it is shown: the character itself for punctuation. -/
def shown : TokenKind → String
  | identifier => "IDENT"
  | integer => "INT"
  | float => "FLOAT"
  | string => "STRING"
  | openBrace => "\x7b"
  | closeBrace => "\x7d"
  | openBracket => "["
  | closeBracket => "]"
  | openParen => "("
  | closeParen => ")"
  | semicolon => ";"
  | comma => ","
  | dot => "."
  | equals => "="
  | colon => ":"
  | endOfInput => "EOF"

/-- The name of a kind in listings of tokens. -/
def listed : TokenKind → String
  | openBrace => "LBRACE"
  | closeBrace => "RBRACE"
  | openBracket => "LBRACKET"
  | closeBracket => "RBRACKET"
  | openParen => "LPAREN"
  | closeParen => "RPAREN"
  | semicolon => "SEMI"
  | comma => "COMMA"
  | dot => "DOT"
  | equals => "EQ"
  | colon => "COLON"
  | kind => kind.shown

end TokenKind

/-- A comment to the end of a line or between delimiters; its text includes them. -/
structure Comment where
  block : Bool
  text : String
  span : Span
deriving DecidableEq, Repr

/-- A token.  The lexeme of a string literal is what stands between its quotes, with the
escapes not yet interpreted; every other lexeme is the token as written. -/
structure Token where
  kind : TokenKind
  lexeme : String
  span : Span
  comments : List Comment
deriving DecidableEq, Repr

namespace Token

/-- Whether a token is the given word. -/
def isWord (t : Token) (word : String) : Bool :=
  t.kind = .identifier && t.lexeme = word

/-- Whether a token is the end of the input. -/
def isEnd (t : Token) : Bool :=
  t.kind = .endOfInput

/-- A token as a diagnostic speaks of it. -/
def describe (t : Token) : String :=
  match t.kind with
  | .endOfInput => "end of input"
  | .string => "string literal"
  | .identifier | .integer | .float => Text.quotedString t.lexeme
  | kind => Text.quotedString kind.shown

/-- A token as a listing shows it. -/
def listing (t : Token) : String :=
  "Token(TokenKind." ++ t.kind.listed ++ ", " ++ Text.quotedString t.lexeme ++ ", " ++
    t.span.format ++ ")"

end Token

end Proto2
