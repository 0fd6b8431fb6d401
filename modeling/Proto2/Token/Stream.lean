import Proto2.Token.Lexer

/-!
A stream of tokens with unbounded lookahead.

A parser sees the tokens of a text one after the other and may look ahead as far as it likes;
behind the end, the end of the input repeats.  Tokens are read only as far as someone looks,
so a lexical error surfaces when the token behind it is first needed, and only once: from
then on the stream consists of what had been read before.
-/

namespace Proto2

/-- The tokens that are not yet consumed. -/
structure TokenStream where
  /-- The tokens to come, up to the end of the input or to a lexical error. -/
  tokens : List Token
  /-- How many of them have been looked at. -/
  seen : Nat
  /-- The lexical error behind the tokens, until it surfaces. -/
  failure : Option LexicalError
  /-- The token consumed last. -/
  last : Option Token
deriving DecidableEq, Repr

namespace TokenStream

/-- The stream of what a lexer reads, with nothing consumed. -/
def ofLexed (l : Lexed) : TokenStream :=
  ⟨l.tokens, 0, l.failure, none⟩

/-- The stream of a source text. -/
def ofText (file : String) (source : List Char) : TokenStream :=
  ofLexed (Lexed.ofText file source)

/-- The stream after a look at the token so many places ahead. -/
def lookedAt (s : TokenStream) (n : Nat) : TokenStream :=
  if s.tokens[n]?.isSome then { s with seen := max s.seen (n + 1) }
  else { s with seen := s.tokens.length, failure := none }

/-- The token so many places ahead, the last one standing for all behind it. -/
def token? (s : TokenStream) (n : Nat) : Option Token :=
  s.tokens[n]?.or s.tokens.getLast?

/-- The lexical error that a look so many places ahead meets. -/
def failureAt? (s : TokenStream) (n : Nat) : Option LexicalError :=
  if s.tokens[n]?.isSome then none else s.failure

/-- The token so many places back from the last one that has been looked at, counting from
one. -/
def seenToken? (s : TokenStream) (back : Nat) : Option Token :=
  if back ≤ s.seen then s.tokens[s.seen - back]? else none

/-- The stream after its first token, which is given, is consumed.  The end of the input is
never used up. -/
def consume (s : TokenStream) (t : Token) : TokenStream :=
  if t.isEnd then { s with last := some t }
  else { s with tokens := s.tokens.tail, seen := s.seen - 1, last := some t }

end TokenStream

end Proto2
